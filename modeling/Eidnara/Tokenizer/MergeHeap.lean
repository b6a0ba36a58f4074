import Eidnara.Tokenizer.MergeScan

/-!
# The heap engine

The linked list of `mergeHeap` is at every step the parts that the merge process has
reached, and its heap has a key for each of their pairs with a rank.  A key whose rank is
still that of its position is therefore the next pair; any other key is skipped.
-/

namespace Eidnara.Tokenizer

open Lib Utf8 List

/-! ## Keys -/

variable {rank position : Nat}

theorem packKey_eq (h : position < 2 ^ 32) : packKey rank position = 2 ^ 32 * rank + position := by
  rw [packKey, Nat.shiftLeft_eq, Nat.mul_comm, ← Nat.two_pow_add_eq_or_of_lt h]

theorem unpack_packKey (hrank : rank < 2 ^ 32) (h : position < 2 ^ 32) :
    asU32 (packKey rank position >>> 32) = rank ∧ asU32 (packKey rank position) = position := by
  rw [packKey_eq h, Nat.shiftRight_eq_div_pow, asU32, asU32]
  omega

theorem packKey_le {rank' position' : Nat} (h : position < 2 ^ 32) (h' : position' < 2 ^ 32)
    (hle : packKey rank position ≤ packKey rank' position') :
    rank < rank' ∨ (rank = rank' ∧ position ≤ position') := by
  rw [packKey_eq h, packKey_eq h'] at hle
  omega

theorem packKey_inj {rank' position' : Nat} (h : position < 2 ^ 32) (h' : position' < 2 ^ 32)
    (heq : packKey rank position = packKey rank' position') :
    rank = rank' ∧ position = position' := by
  rw [packKey_eq h, packKey_eq h'] at heq
  omega

theorem popMin_eq_some {heap rest : List Nat} {key : Nat} (h : popMin heap = some (key, rest)) :
    key ∈ heap ∧ (∀ other ∈ heap, key ≤ other) ∧ rest = heap.erase key := by
  obtain ⟨least, hleast, heq⟩ := Option.map_eq_some_iff.mp h
  obtain ⟨rfl, rfl⟩ := Prod.mk.inj heq
  obtain ⟨hmem, hle⟩ := min?_eq_some_iff.mp hleast
  exact ⟨hmem, hle, rfl⟩

theorem mem_pushPair {heap : List Nat} {key : Nat} :
    key ∈ pushPair heap rank position ↔
      (rank ≠ noRank ∧ key = packKey rank position) ∨ key ∈ heap := by
  unfold pushPair
  split_ifs with h
  · simp [h]
  · simp [not_not.mp h]

theorem length_pushPair (heap : List Nat) (rank position : Nat) :
    (pushPair heap rank position).length ≤ heap.length + 1 := by
  unfold pushPair
  split_ifs
  · exact le_rfl
  · exact Nat.le_succ _

/-! ## The linked parts -/

abbrev off (parts : List Bytes) : Nat := parts.flatten.length

theorem off_append (a b : List Bytes) : off (a ++ b) = off a + off b := by
  simp [off]

theorem off_cons (x : Bytes) (a : List Bytes) : off (x :: a) = x.length + off a := by
  simp [off]

theorem off_nil : off [] = 0 := rfl

theorem off_concat (b : List Bytes) (x : Bytes) : off (b ++ [x]) = off b + x.length := by
  simp [off]

theorem off_join (b : List Bytes) (x y : Bytes) (a : List Bytes) :
    off (b ++ (x ++ y) :: a) = off (b ++ x :: y :: a) := by
  simp [off]

theorem length_le_off {parts : List Bytes} (hparts : ∀ part ∈ parts, 0 < part.length) :
    parts.length ≤ off parts := by
  induction parts with
  | nil => exact le_rfl
  | cons part parts ih =>
    rw [forall_mem_cons] at hparts
    have hrest := ih hparts.2
    rw [length_cons, off_cons]
    omega

structure Linked (vocab : Vocab) (rank : Bytes → Option Nat) (n : Nat) (parts : List Bytes)
    (s : Scratch) : Prop where
  nextLength : s.next.length = n
  prevLength : s.prev.length = n
  rankLength : s.rank.length = n
  next : ∀ {b x a}, parts = b ++ x :: a → s.next[off b]? = some (off b + x.length)
  first : s.prev[0]? = some u32Max
  prev : ∀ {b w x a}, parts = b ++ w :: x :: a → s.prev[off b + w.length]? = some (off b)
  pair : ∀ {b x y a}, parts = b ++ x :: y :: a → s.rank[off b]? = some (vocab.find (x ++ y))
  last : ∀ {b x}, parts = b ++ [x] → s.rank[off b]? = some noRank
  merged : ∀ {j}, j < n → (∀ b x a, parts = b ++ x :: a → off b ≠ j) → s.rank[j]? = some dead
  live : ∀ {b x y a r}, parts = b ++ x :: y :: a → rank (x ++ y) = some r →
    packKey r (off b) ∈ s.heap
  keys : ∀ key ∈ s.heap, ∃ r position, key = packKey r position ∧ r < dead ∧ position < n

section

variable {vocab : Vocab} {rank : Bytes → Option Nat} {n : Nat} {parts : List Bytes} {s : Scratch}

variable {b b' : List Bytes} {u : Bytes}

theorem length_le_of_off_le {a a' : List Bytes} {x : Bytes} (hu : 0 < u.length)
    (heq : b ++ x :: a = b' ++ u :: a') (hle : off b ≤ off b') : b.length ≤ b'.length := by
  rcases append_cons_eq_append_cons.mp heq with ⟨e, rfl, -⟩ | ⟨rfl, -, -⟩ | ⟨e, rfl, -⟩
  · rw [off_append, off_cons] at hle
    omega
  · exact le_rfl
  · simp

theorem Linked.skip (hranks : vocab.Ranks rank) (h : Linked vocab rank n parts s)
    (hn : n < 2 ^ 32) (hparts : ∀ part ∈ parts, 0 < part.length) (hpiece : off parts = n)
    {r position current : Nat} (hposition : position < n)
    (hcurrent : s.rank[position]? = some current) (hstale : current ≠ r) :
    Linked vocab rank n parts { s with heap := s.heap.erase (packKey r position) } :=
  { h with
    live := by
      intro b x y a r' hsplit hr'
      have hx := hparts x (by simp [hsplit])
      have hb : off b < n := by
        rw [← hpiece, hsplit, off_append, off_cons]
        omega
      have hne : packKey r' (off b) ≠ packKey r position := by
        intro heq
        obtain ⟨rfl, rfl⟩ := packKey_inj (by omega) (by omega) heq
        have hpair := h.pair hsplit
        rw [hcurrent, hranks.find_of_some hr'] at hpair
        exact hstale (Option.some.inj hpair)
      exact (mem_erase_of_ne hne).mpr (h.live hsplit hr')
    keys := fun key hkey => h.keys key (mem_of_mem_erase hkey) }

/-- A least key that is current is the next pair. -/
theorem Linked.isNext (hranks : vocab.Ranks rank) (h : Linked vocab rank n parts s)
    (hn : n < 2 ^ 32) (hparts : ∀ part ∈ parts, 0 < part.length) (hpiece : off parts = n)
    {r position : Nat} (hreal : r < dead) (hposition : position < n)
    (hcurrent : s.rank[position]? = some r) (hleast : ∀ key ∈ s.heap, packKey r position ≤ key) :
    ∃ b x y a, parts = b ++ x :: y :: a ∧ off b = position ∧ IsNext rank b x y a r := by
  have hdead : dead < noRank := by decide
  obtain ⟨b, x, a, hsplit, hoff⟩ : ∃ b x a, parts = b ++ x :: a ∧ off b = position := by
    by_contra hnone
    push Not at hnone
    have := h.merged hposition hnone
    rw [hcurrent] at this
    exact absurd (Option.some.inj this) (by omega)
  subst hoff
  cases a with
  | nil =>
    have := h.last hsplit
    rw [hcurrent] at this
    exact absurd (Option.some.inj this) (by omega)
  | cons y a =>
    have hpair := h.pair hsplit
    rw [hcurrent] at hpair
    have hfind : r = vocab.find (x ++ y) := Option.some.inj hpair
    refine ⟨b, x, y, a, hsplit, rfl, ?_, ?_⟩
    · rw [hfind]
      exact hranks.rank_of_find_lt (by omega)
    · intro b' u v a' r' heq hr'
      rw [← hsplit] at heq
      have hu := hparts u (by simp [heq])
      have hb' : off b' < n := by
        rw [← hpiece, heq, off_append, off_cons]
        omega
      rcases packKey_le (by omega) (by omega) (hleast _ (h.live heq hr')) with hlt | ⟨hsame, hle⟩
      · exact .inl hlt
      · exact .inr ⟨hsame, length_le_of_off_le hu (hsplit.symm.trans heq) hle⟩

/-! ## One merge -/

/-- What the merge of `x` and `y` does to the scratch.  The pair's own key is spent. -/
structure Spliced (vocab : Vocab) (n : Nat) (b : List Bytes) (x y : Bytes) (a : List Bytes)
    (spent : Nat) (s s' : Scratch) : Prop where
  nextLength : s'.next.length = n
  prevLength : s'.prev.length = n
  rankLength : s'.rank.length = n
  next : ∀ k : Nat, s'.next[k]? =
    if k = off b then some (off b + x.length + y.length) else s.next[k]?
  prev : ∀ k : Nat, k < n → s'.prev[k]? =
    if k = off b + x.length + y.length then some (off b) else s.prev[k]?
  merged : ∀ {z a'}, a = z :: a' → s'.rank[off b]? = some (vocab.find (x ++ y ++ z))
  mergedLast : a = [] → s'.rank[off b]? = some noRank
  joint : s'.rank[off b + x.length]? = some dead
  before : ∀ {b' w}, b = b' ++ [w] → s'.rank[off b']? = some (vocab.find (w ++ (x ++ y)))
  rest : ∀ {k : Nat}, k ≠ off b → k ≠ off b + x.length → (∀ b' w, b = b' ++ [w] → k ≠ off b') →
    s'.rank[k]? = s.rank[k]?
  old : ∀ key ∈ s.heap, key ≠ spent → key ∈ s'.heap
  mergedKey : ∀ {z a'}, a = z :: a' → vocab.find (x ++ y ++ z) ≠ noRank →
    packKey (vocab.find (x ++ y ++ z)) (off b) ∈ s'.heap
  beforeKey : ∀ {b' w}, b = b' ++ [w] → vocab.find (w ++ (x ++ y)) ≠ noRank →
    packKey (vocab.find (w ++ (x ++ y))) (off b') ∈ s'.heap
  keys : ∀ key ∈ s'.heap, key ∈ s.heap ∨
    ∃ token position, key = packKey (vocab.find token) position ∧ vocab.find token ≠ noRank ∧
      position < n
  heapLength : s'.heap.length ≤ s.heap.length + 1

theorem adjacent_cases {a a' : List Bytes} {x y v : Bytes}
    (h : b ++ (x ++ y) :: a = b' ++ u :: v :: a') :
    (∃ e, b = b' ++ u :: v :: e ∧ a' = e ++ (x ++ y) :: a) ∨
      (b = b' ++ [u] ∧ v = x ++ y ∧ a' = a) ∨ (b' = b ∧ u = x ++ y ∧ a = v :: a') ∨
        ∃ e, b' = b ++ (x ++ y) :: e ∧ a = e ++ u :: v :: a' := by
  rcases append_cons_eq_append_cons.mp h with ⟨e, hb, ha'⟩ | ⟨hb, hu, ha⟩ | ⟨e, hb, ha⟩
  · cases e with
    | nil =>
      simp only [nil_append, List.cons.injEq] at ha'
      exact .inr (.inl ⟨hb, ha'.1, ha'.2⟩)
    | cons w e =>
      simp only [cons_append, List.cons.injEq] at ha'
      obtain ⟨rfl, ha'⟩ := ha'
      exact .inl ⟨e, hb, ha'⟩
  · exact .inr (.inr (.inl ⟨hb, hu, ha.symm⟩))
  · exact .inr (.inr (.inr ⟨e, hb, ha⟩))

theorem exists_of_append_cons_eq_concat {e : List Bytes} {v w : Bytes}
    (h : b ++ u :: v :: e = b' ++ [w]) : ∃ e', b' = b ++ u :: e' := by
  rcases append_cons_eq_append_cons.mp h.symm with ⟨e', hb, -⟩ | ⟨-, -, hnil⟩ | ⟨e', -, hnil⟩
  · exact ⟨e', hb⟩
  · cases hnil
  · simp at hnil

section Splice

variable {b a : List Bytes} {x y : Bytes} {spent : Nat} {s' : Scratch}
  (h : Linked vocab rank n (b ++ x :: y :: a) s)
  (hparts : ∀ part ∈ b ++ x :: y :: a, 0 < part.length) (hpiece : off (b ++ x :: y :: a) = n)
  (hs : Spliced vocab n b x y a spent s s')

include h hparts hpiece hs

variable {b' a' : List Bytes} {u : Bytes}

theorem Spliced.links (hsplit : b ++ (x ++ y) :: a = b' ++ u :: a') :
    s'.next[off b']? = some (off b' + u.length) := by
  have hx := hparts x (by simp)
  rw [hs.next]
  rcases append_cons_eq_append_cons.mp hsplit with ⟨e, rfl, rfl⟩ | ⟨rfl, rfl, rfl⟩ | ⟨e, rfl, rfl⟩
  · have hu := hparts u (by simp)
    rw [if_neg (by simp only [off_append, off_cons]; omega)]
    exact h.next (a := e ++ x :: y :: a) (by simp)
  · rw [if_pos rfl, length_append, Nat.add_assoc]
  · have hold := h.next (b := b ++ x :: y :: e) (x := u) (a := a') (by simp)
    simp only [off_append, off_cons, length_append, Nat.add_assoc] at hold ⊢
    rw [if_neg (by omega)]
    exact hold

variable {v : Bytes}

theorem Spliced.backlinks (hsplit : b ++ (x ++ y) :: a = b' ++ u :: v :: a') :
    s'.prev[off b' + u.length]? = some (off b') := by
  have hx := hparts x (by simp)
  simp only [off_append, off_cons] at hpiece
  rcases adjacent_cases hsplit with ⟨e, rfl, rfl⟩ | ⟨rfl, rfl, rfl⟩ | ⟨rfl, rfl, rfl⟩ |
    ⟨e, rfl, rfl⟩
  · simp only [off_append, off_cons] at hpiece
    rw [hs.prev _ (by omega), if_neg (by simp only [off_append, off_cons]; omega)]
    exact h.prev (x := v) (a := e ++ x :: y :: a) (by simp)
  · simp only [off_append, off_cons] at hpiece
    rw [hs.prev _ (by omega), if_neg (by simp only [off_append, off_cons, off_nil]; omega)]
    exact h.prev (x := x) (a := y :: a') (by simp)
  · have hv := hparts v (by simp)
    rw [off_cons] at hpiece
    rw [hs.prev _ (by rw [length_append]; omega), if_pos (by rw [length_append]; omega)]
  · have hu := hparts u (by simp)
    have hv := hparts v (by simp)
    have hold := h.prev (b := b ++ x :: y :: e) (w := u) (x := v) (a := a') (by simp)
    simp only [off_append, off_cons, length_append, Nat.add_assoc] at hold hpiece ⊢
    rw [hs.prev _ (by omega), if_neg (by omega)]
    exact hold

/-- Behind the merged part the ranks stay. -/
theorem Spliced.rest_after (e : List Bytes) :
    s'.rank[off (b ++ (x ++ y) :: e)]? = s.rank[off (b ++ x :: y :: e)]? := by
  have hy := hparts y (by simp)
  rw [off_join]
  refine hs.rest ?_ ?_ fun b'' w hb'' => ?_
  · simp only [off_append, off_cons]
    omega
  · simp only [off_append, off_cons]
    omega
  · subst hb''
    simp only [off_append, off_cons]
    omega

theorem Spliced.pairs (hsplit : b ++ (x ++ y) :: a = b' ++ u :: v :: a') :
    s'.rank[off b']? = some (vocab.find (u ++ v)) := by
  rcases adjacent_cases hsplit with ⟨e, rfl, rfl⟩ | ⟨hb, rfl, rfl⟩ | ⟨rfl, rfl, ha⟩ | ⟨e, rfl, rfl⟩
  · have hu := hparts u (by simp)
    have hold := h.pair (b := b') (x := u) (y := v) (a := e ++ x :: y :: a) (by simp)
    rw [← hold]
    refine hs.rest ?_ ?_ fun b'' w hb'' => ?_
    · simp only [off_append, off_cons]
      omega
    · simp only [off_append, off_cons]
      omega
    · obtain ⟨e', rfl⟩ := exists_of_append_cons_eq_concat hb''
      simp only [off_append, off_cons]
      omega
  · exact hs.before hb
  · exact hs.merged ha
  · rw [hs.rest_after h hparts hpiece]
    exact h.pair (a := a') (by simp)

theorem Spliced.lasts (hsplit : b ++ (x ++ y) :: a = b' ++ [u]) :
    s'.rank[off b']? = some noRank := by
  rcases append_cons_eq_append_cons.mp hsplit with ⟨e, -, hnil⟩ | ⟨rfl, rfl, ha⟩ | ⟨e, rfl, rfl⟩
  · simp at hnil
  · exact hs.mergedLast ha.symm
  · rw [hs.rest_after h hparts hpiece]
    exact h.last (x := u) (by simp)

theorem Spliced.deads {j : Nat} (hj : j < n)
    (hfree : ∀ b' u a', b ++ (x ++ y) :: a = b' ++ u :: a' → off b' ≠ j) :
    s'.rank[j]? = some dead := by
  by_cases hjoint : j = off b + x.length
  · rw [hjoint]
    exact hs.joint
  rw [hs.rest (fun hb => hfree b (x ++ y) a rfl hb.symm) hjoint fun b' w hb =>
    (hfree b' w ((x ++ y) :: a) (by simp [hb])).symm]
  refine h.merged hj fun b' u a' hsplit hoff => ?_
  rcases append_cons_eq_append_cons.mp hsplit with ⟨e, rfl, rfl⟩ | ⟨rfl, -, -⟩ | ⟨e, rfl, hrest⟩
  · exact hfree b' u (e ++ (x ++ y) :: a) (by simp) hoff
  · exact hfree b' (x ++ y) a rfl hoff
  · cases e with
    | nil =>
      refine hjoint ?_
      simp only [off_append, off_cons, off_nil] at hoff
      omega
    | cons w e =>
      obtain ⟨rfl, rfl⟩ := hrest
      refine hfree (b ++ (x ++ y) :: e) u a' (by simp) ?_
      rw [← hoff, off_join]

theorem Spliced.lives (hranks : vocab.Ranks rank) (hn : n < 2 ^ 32)
    (hspent : ∃ r, spent = packKey r (off b)) {r : Nat}
    (hsplit : b ++ (x ++ y) :: a = b' ++ u :: v :: a') (hr : rank (u ++ v) = some r) :
    packKey r (off b') ∈ s'.heap := by
  have hfind := hranks.find_of_some hr
  have hreal := (hranks.lt_noRank hr).ne
  have hx := hparts x (by simp)
  simp only [off_append, off_cons] at hpiece
  -- The keys of the other pairs stand at other offsets.
  have hother : ∀ {position : Nat}, position < 2 ^ 32 → position ≠ off b →
      packKey r position ≠ spent := by
    intro position hposition hne heq
    obtain ⟨r', rfl⟩ := hspent
    exact hne (packKey_inj hposition (by omega) heq).2
  rcases adjacent_cases hsplit with ⟨e, rfl, rfl⟩ | ⟨hb, rfl, rfl⟩ | ⟨rfl, rfl, ha⟩ | ⟨e, rfl, rfl⟩
  · have hu := hparts u (by simp)
    simp only [off_append, off_cons] at hpiece
    exact hs.old _ (h.live (b := b') (a := e ++ x :: y :: a) (by simp) hr)
      (hother (by omega) (by simp only [off_append, off_cons]; omega))
  · have hkey := hs.beforeKey hb
    rw [hfind] at hkey
    exact hkey hreal
  · have hkey := hs.mergedKey ha
    rw [hfind] at hkey
    exact hkey hreal
  · rw [off_join]
    simp only [off_append, off_cons] at hpiece
    exact hs.old _ (h.live (a := a') (by simp) hr)
      (hother (by simp only [off_append, off_cons]; omega)
        (by simp only [off_append, off_cons]; omega))

theorem Linked.splice (hranks : vocab.Ranks rank) (hn : n < 2 ^ 32)
    (hspent : ∃ r, spent = packKey r (off b)) :
    Linked vocab rank n (b ++ (x ++ y) :: a) s' where
  nextLength := hs.nextLength
  prevLength := hs.prevLength
  rankLength := hs.rankLength
  next := hs.links h hparts hpiece
  first := by
    have hx := hparts x (by simp)
    have hn : 0 < n := by
      rw [← hpiece, off_append, off_cons]
      omega
    rw [hs.prev 0 hn, if_neg (by omega)]
    exact h.first
  prev := hs.backlinks h hparts hpiece
  pair := hs.pairs h hparts hpiece
  last := hs.lasts h hparts hpiece
  merged := hs.deads h hparts hpiece
  live := hs.lives h hparts hpiece hranks hn hspent
  keys := by
    intro key hkey
    rcases hs.keys key hkey with hold | ⟨token, position, rfl, hreal, hposition⟩
    · exact h.keys key hold
    · have hlt : vocab.find token < noRank := lt_of_le_of_ne (hranks.find_le token) hreal
      exact ⟨_, position, rfl, hranks.real _ _ (hranks.rank_of_find_lt hlt), hposition⟩

end Splice

section Node

variable {text : Bytes} {start stop : Nat} {b a : List Bytes} {x y : Bytes}

theorem refreshPair_eq {token : Bytes} {position last : Nat} (hstop : stop ≤ text.length)
    (hoccurs : OccursAt (slice text start stop) position token) (htoken : token ≠ [])
    (hlast : last = position + token.length) (hposition : position < s.rank.length) :
    refreshPair vocab text start s position last =
      some { s with
        rank := s.rank.set position (vocab.find token)
        heap := pushPair s.heap (vocab.find token) position } := by
  rw [refreshPair, hlast, rankOf_occurs hstop hoccurs htoken, some_bind,
    Vec.setAt_of_lt hposition]
  rfl

def mergedRank (vocab : Vocab) (x y : Bytes) : List Bytes → Nat
  | [] => noRank
  | z :: _ => vocab.find (x ++ y ++ z)

def mergedState (vocab : Vocab) (b : List Bytes) (x y : Bytes) (a : List Bytes) (s : Scratch) :
    Scratch :=
  { s with
    prev := if a = [] then s.prev else s.prev.set (off b + x.length + y.length) (off b)
    rank := s.rank.set (off b) (mergedRank vocab x y a)
    heap := pushPair s.heap (mergedRank vocab x y a) (off b) }

def beforeState (vocab : Vocab) (b : List Bytes) (x y : Bytes) (s : Scratch) : Scratch :=
  match b.getLast? with
  | none => s
  | some w =>
    { s with
      rank := s.rank.set (off b.dropLast) (vocab.find (w ++ (x ++ y)))
      heap := pushPair s.heap (vocab.find (w ++ (x ++ y))) (off b.dropLast) }

theorem beforeState_nil (x y : Bytes) (s : Scratch) : beforeState vocab [] x y s = s := rfl

theorem beforeState_concat (b : List Bytes) (w x y : Bytes) (s : Scratch) :
    beforeState vocab (b ++ [w]) x y s =
      { s with
        rank := s.rank.set (off b) (vocab.find (w ++ (x ++ y)))
        heap := pushPair s.heap (vocab.find (w ++ (x ++ y))) (off b) } := by
  simp [beforeState]

/-- The pair before the merged part gets its rank and its key; nothing else changes. -/
theorem beforeState_frame (b : List Bytes) (x y : Bytes) (s : Scratch) :
    let t := beforeState vocab b x y s
    t.next = s.next ∧ t.prev = s.prev ∧ t.rank.length = s.rank.length ∧
      t.heap.length ≤ s.heap.length + 1 ∧
      (∀ k : Nat, (∀ b' w, b = b' ++ [w] → k ≠ off b') → t.rank[k]? = s.rank[k]?) ∧
      (∀ {b' w}, b = b' ++ [w] → off b' < s.rank.length →
        t.rank[off b']? = some (vocab.find (w ++ (x ++ y)))) ∧
      ∀ key, key ∈ t.heap ↔ key ∈ s.heap ∨ ∃ b' w, b = b' ++ [w] ∧
        vocab.find (w ++ (x ++ y)) ≠ noRank ∧
        key = packKey (vocab.find (w ++ (x ++ y))) (off b') := by
  rcases eq_nil_or_concat b with rfl | ⟨b', w, rfl⟩
  · simp [beforeState_nil]
  · rw [concat_eq_append, beforeState_concat]
    refine ⟨rfl, rfl, length_set, length_pushPair _ _ _, fun k hk =>
      getElem?_set_ne (Ne.symm (hk b' w rfl)), fun hb hlt => ?_, fun key => ?_⟩
    · obtain ⟨rfl, rfl⟩ : b' = _ ∧ w = _ := by simpa using hb
      exact getElem?_set_self hlt
    · rw [mem_pushPair, or_comm]
      simp [and_assoc]

variable (hparts : ∀ part ∈ b ++ x :: y :: a, 0 < part.length)
  (hpiece : (b ++ x :: y :: a).flatten = slice text start stop) (hstop : stop ≤ text.length)
  (hlength : off (b ++ x :: y :: a) = n)

section

include hparts hpiece hstop hlength

theorem refreshMerged_eq {t : Scratch} (hprev : t.prev.length = n) (hrank : t.rank.length = n)
    (hnext : ∀ {z a'}, a = z :: a' →
      t.next[off b + x.length + y.length]? = some (off b + x.length + y.length + z.length)) :
    refreshMerged vocab text start t n (off b) (off b + x.length + y.length) =
      some (mergedState vocab b x y a t) := by
  have hx := hparts x (by simp)
  simp only [off_append, off_cons] at hlength
  cases a with
  | nil =>
    rw [off_nil] at hlength
    rw [refreshMerged, if_neg (by omega), Vec.setAt_of_lt (by omega)]
    rfl
  | cons z a =>
    have hz := hparts z (by simp)
    rw [off_cons] at hlength
    have hoccurs : OccursAt (slice text start stop) (off b) (x ++ y ++ z) := by
      refine ⟨b.flatten, a.flatten, ?_, rfl⟩
      rw [← hpiece]
      simp
    rw [refreshMerged, if_pos (by omega), Vec.setAt_of_lt (by omega), hnext rfl]
    exact refreshPair_eq hstop hoccurs (by simp [ne_nil_of_length_pos hx])
      (by simp only [length_append]; omega) (by simp only; omega)

theorem refreshBefore_eq (hn : n < 2 ^ 32) {t : Scratch} (hrank : t.rank.length = n)
    (hfirst : b = [] → t.prev[0]? = some u32Max)
    (hprev : ∀ {b' w}, b = b' ++ [w] → t.prev[off b]? = some (off b')) :
    refreshBefore vocab text start t (off b) (off b + x.length + y.length) =
      some (beforeState vocab b x y t) := by
  simp only [off_append, off_cons] at hlength
  rcases eq_nil_or_concat b with rfl | ⟨b', w, rfl⟩
  · rw [off_nil, refreshBefore, hfirst rfl]
    rfl
  · have hw := hparts w (by simp)
    simp only [concat_eq_append] at *
    have hoccurs : OccursAt (slice text start stop) (off b') (w ++ (x ++ y)) := by
      refine ⟨b'.flatten, a.flatten, ?_, rfl⟩
      rw [← hpiece]
      simp
    rw [off_concat] at hlength
    have hposition : off b' ≠ u32Max := by
      unfold u32Max
      omega
    rw [refreshBefore, hprev rfl, some_bind, if_pos hposition,
      refreshPair_eq hstop hoccurs (by simp [ne_nil_of_length_pos hw]) ?_ (by omega)]
    · rw [beforeState_concat]
    · rw [off_concat, length_append, length_append]
      omega

theorem mergeNode_eq (h : Linked vocab rank n (b ++ x :: y :: a) s) (hn : n < 2 ^ 32)
    (heap : List Nat) :
    mergeNode vocab text start n { s with heap } (off b) =
      some (beforeState vocab b x y (mergedState vocab b x y a
        { s with
          next := s.next.set (off b) (off b + x.length + y.length)
          rank := s.rank.set (off b + x.length) dead
          heap })) := by
  have hy := hparts y (by simp)
  have hj : s.next[off b]? = some (off b + x.length) := h.next rfl
  have hafter : s.next[off b + x.length]? = some (off b + x.length + y.length) := by
    have := h.next (b := b ++ [x]) (x := y) (a := a) (by simp)
    rwa [off_concat] at this
  have hbeyond : ∀ {z a'}, a = z :: a' →
      (s.next.set (off b) (off b + x.length + y.length))[off b + x.length + y.length]? =
        some (off b + x.length + y.length + z.length) := by
    rintro z a' rfl
    have := h.next (b := b ++ [x, y]) (x := z) (a := a') (by simp)
    rw [getElem?_set_ne (by omega)]
    simpa only [off_append, off_cons, off_nil, Nat.add_zero, Nat.add_assoc] using this
  have hsize := hlength
  simp only [off_append, off_cons] at hsize
  have hnext := h.nextLength
  have hrank := h.rankLength
  simp only [mergeNode, hj, hafter, Option.bind_eq_bind, Option.bind_some]
  rw [Vec.setAt_of_lt (by omega), Vec.setAt_of_lt (by omega)]
  simp only [Option.bind_some]
  rw [refreshMerged_eq (t := { s with
      next := s.next.set (off b) (off b + x.length + y.length)
      rank := s.rank.set (off b + x.length) dead
      heap })
    hparts hpiece hstop hlength h.prevLength (by simpa using hrank) hbeyond]
  refine refreshBefore_eq hparts hpiece hstop hlength hn ?_ ?_ ?_
  · simpa [mergedState] using hrank
  · rintro rfl
    have hfirst := h.first
    simp only [mergedState]
    split_ifs
    · exact hfirst
    · rw [getElem?_set_ne (by omega)]
      exact hfirst
  · rintro b' w rfl
    have hprev := h.prev (b := b') (w := w) (x := x) (a := y :: a) (by simp)
    have hoff := off_concat b' w
    simp only [mergedState]
    rw [← hoff] at hprev
    split_ifs
    · exact hprev
    · rw [getElem?_set_ne (by omega)]
      exact hprev

end

include hparts hlength

/-- What the merge does, field by field. -/
theorem spliced_states (h : Linked vocab rank n (b ++ x :: y :: a) s) {spent : Nat}
    (hspent : spent ∈ s.heap) :
    Spliced vocab n b x y a spent s (beforeState vocab b x y (mergedState vocab b x y a
      { s with
        next := s.next.set (off b) (off b + x.length + y.length)
        rank := s.rank.set (off b + x.length) dead
        heap := s.heap.erase spent })) := by
  have hx := hparts x (by simp)
  have hnext := h.nextLength
  have hprev := h.prevLength
  have hrank := h.rankLength
  simp only [off_append, off_cons] at hlength
  have hbelow : ∀ {b' w}, b = b' ++ [w] → off b' < off b := by
    rintro b' w rfl
    have hw := hparts w (by simp)
    rw [off_concat]
    omega
  have hcases : ∀ {z a'}, a = z :: a' → mergedRank vocab x y a = vocab.find (x ++ y ++ z) := by
    rintro z a' rfl
    rfl
  generalize hm : mergedState vocab b x y a _ = m
  obtain ⟨hnexts, hprevs, hlengths, hsize, hranks, hbefore, hheap⟩ :=
    @beforeState_frame vocab b x y m
  have hmerged : ∀ k : Nat, m.rank[k]? = if k = off b then some (mergedRank vocab x y a)
      else if k = off b + x.length then some dead else s.rank[k]? := by
    intro k
    rw [← hm]
    simp only [mergedState, getElem?_set, length_set]
    grind
  have hpushed : ∀ key, key ∈ m.heap ↔
      (mergedRank vocab x y a ≠ noRank ∧ key = packKey (mergedRank vocab x y a) (off b)) ∨
        key ∈ s.heap.erase spent := by
    intro key
    rw [← hm]
    exact mem_pushPair
  have hrankLength : m.rank.length = n := by
    rw [← hm]
    simpa [mergedState] using hrank
  exact
    { nextLength := by
        rw [hnexts, ← hm]
        simpa [mergedState] using hnext
      prevLength := by
        rw [hprevs, ← hm]
        simp only [mergedState]
        split_ifs <;> simpa
      rankLength := hlengths.trans hrankLength
      next := fun k => by
        rw [hnexts, ← hm]
        simp only [mergedState, getElem?_set]
        grind
      prev := fun k hk => by
        rw [hprevs, ← hm]
        simp only [mergedState]
        cases a with
        | nil =>
          rw [off_nil] at hlength
          rw [if_pos rfl, if_neg (by omega)]
        | cons z a =>
          grind
      merged := fun ha => by
        rw [hranks _ fun b' w hb => (hbelow hb).ne', hmerged, if_pos rfl, hcases ha]
      mergedLast := by
        rintro rfl
        rw [hranks _ fun b' w hb => (hbelow hb).ne', hmerged, if_pos rfl]
        rfl
      joint := by
        rw [hranks _ fun b' w hb => by have := hbelow hb; omega, hmerged, if_neg (by omega),
          if_pos rfl]
      before := fun hb => hbefore hb (by have := hbelow hb; omega)
      rest := fun hk hjoint hother => by
        rw [hranks _ hother, hmerged, if_neg hk, if_neg hjoint]
      old := fun key hkey hne =>
        (hheap key).mpr (.inl ((hpushed key).mpr (.inr ((mem_erase_of_ne hne).mpr hkey))))
      mergedKey := fun ha hreal => by
        rw [← hcases ha] at hreal ⊢
        exact (hheap _).mpr (.inl ((hpushed _).mpr (.inl ⟨hreal, rfl⟩)))
      beforeKey := fun hb hreal => (hheap _).mpr (.inr ⟨_, _, hb, hreal, rfl⟩)
      keys := fun key hkey => by
        rcases (hheap key).mp hkey with hold | ⟨b', w, hb, hreal, rfl⟩
        · rcases (hpushed key).mp hold with ⟨hreal, rfl⟩ | hold
          · cases a with
            | nil => exact absurd rfl hreal
            | cons z a => exact .inr ⟨_, _, rfl, hreal, by omega⟩
          · exact .inl (mem_of_mem_erase hold)
        · exact .inr ⟨_, _, rfl, hreal, by have := hbelow hb; omega⟩
      heapLength := by
        have hgrown : m.heap.length ≤ (s.heap.erase spent).length + 1 := by
          rw [← hm]
          exact length_pushPair _ _ _
        have hpos := length_pos_of_mem hspent
        rw [length_erase_of_mem hspent] at hgrown
        omega }

end Node

/-! ## The loop -/

section Loop

variable {text : Bytes} {start stop : Nat}

theorem heapLoop_empty {fuel : Nat} (h : popMin s.heap = none) :
    heapLoop vocab text start n fuel s = some s := by
  unfold heapLoop
  rw [h]

theorem Linked.settled (h : Linked vocab rank n parts s) (hempty : popMin s.heap = none) :
    Settled rank parts := by
  intro b u v a hsplit
  cases hr : rank (u ++ v) with
  | none => rfl
  | some r =>
    have hkey := h.live hsplit hr
    rw [popMin, Option.map_eq_none_iff, min?_eq_none_iff] at hempty
    rw [hempty] at hkey
    cases hkey

/-- With fuel for every key the loop ends with the merged parts. -/
theorem exists_heapLoop (hranks : vocab.Ranks rank) (hstop : stop ≤ text.length) (hn : n < 2 ^ 32)
    (fuel : Nat) (h : Linked vocab rank n parts s) (hparts : ∀ part ∈ parts, 0 < part.length)
    (hpiece : parts.flatten = slice text start stop) (hlength : off parts = n)
    (hfuel : s.heap.length + 3 * parts.length ≤ fuel) :
    ∃ final s', Merges rank parts final ∧ heapLoop vocab text start n fuel s = some s' ∧
      Linked vocab rank n final s' := by
  induction fuel generalizing parts s with
  | zero =>
    have hempty : popMin s.heap = none := by
      have hnil : s.heap = [] := eq_nil_of_length_eq_zero (by omega)
      rw [hnil]
      rfl
    exact ⟨parts, s, .settled (h.settled hempty), heapLoop_empty hempty, h⟩
  | succ fuel ih =>
    cases hpop : popMin s.heap with
    | none => exact ⟨parts, s, .settled (h.settled hpop), heapLoop_empty hpop, h⟩
    | some popped =>
      obtain ⟨key, heap⟩ := popped
      obtain ⟨hkey, hleast, hheap⟩ := popMin_eq_some hpop
      obtain ⟨r, position, rfl, hreal, hposition⟩ := h.keys key hkey
      have hrank := h.rankLength
      obtain ⟨current, hcurrent⟩ : ∃ current, s.rank[position]? = some current :=
        ⟨_, getElem?_eq_getElem (by omega)⟩
      obtain ⟨hunpackRank, hunpack⟩ :=
        unpack_packKey (show r < 2 ^ 32 by unfold dead at hreal; omega)
          (show position < 2 ^ 32 by omega)
      have hsmaller : (s.heap.erase (packKey r position)).length + 1 = s.heap.length := by
        rw [length_erase_of_mem hkey]
        have := length_pos_of_mem hkey
        omega
      unfold heapLoop
      rw [hpop]
      simp only [hunpackRank, hunpack, hcurrent, Option.bind_eq_bind, Option.bind_some, hheap]
      by_cases hstale : current ≠ r
      · rw [if_pos hstale]
        exact ih (h.skip hranks hn hparts hlength hposition hcurrent hstale) hparts hpiece
          hlength (by simp only; omega)
      · rw [not_not.mp hstale] at hcurrent
        rw [if_neg hstale]
        obtain ⟨b, x, y, a, rfl, rfl, hnext⟩ :=
          h.isNext hranks hn hparts hlength hreal hposition hcurrent hleast
        have hspliced := spliced_states hparts hlength h hkey
        have hshorter : (b ++ (x ++ y) :: a).length + 1 = (b ++ x :: y :: a).length := by
          simp only [length_append, length_cons]
          omega
        have hnonempty : ∀ part ∈ b ++ (x ++ y) :: a, 0 < part.length := by
          simp only [forall_mem_append, forall_mem_cons, length_append] at hparts ⊢
          exact ⟨hparts.1, by omega, hparts.2.2.2⟩
        have hgrown := hspliced.heapLength
        rw [mergeNode_eq hparts hpiece hstop hlength h hn, Option.bind_some]
        obtain ⟨final, s', hmerges, hloop, hlinked⟩ :=
          ih (h.splice hparts hlength hspliced hranks hn ⟨r, rfl⟩) hnonempty
            (by simpa using hpiece)
            (by simp only [off_append, off_cons, length_append] at hlength ⊢; omega)
            (by omega)
        exact ⟨final, s', .join hnext hmerges, hloop, hlinked⟩

/-! ## Start and end -/

theorem walkIds_eq (hstop : stop ≤ text.length) (h : Linked vocab rank n parts s)
    (hparts : ∀ part ∈ parts, 0 < part.length) (hpiece : parts.flatten = slice text start stop)
    (hlength : off parts = n) {fuel : Nat} {b a : List Bytes} (hsplit : parts = b ++ a)
    (hfuel : a.length ≤ fuel) :
    walkIds vocab text start n s.next fuel (off b) = some (a.map vocab.find) := by
  induction a generalizing b fuel with
  | nil =>
    rw [append_nil] at hsplit
    subst hsplit
    cases fuel <;> simp [walkIds, hlength]
  | cons x a ih =>
    cases fuel with
    | zero => simp at hfuel
    | succ fuel =>
      have hx := hparts x (by simp [hsplit])
      have hstart : off b < n := by
        rw [← hlength, hsplit, off_append, off_cons]
        omega
      have hoccurs : OccursAt (slice text start stop) (off b) x := by
        refine ⟨b.flatten, a.flatten, ?_, rfl⟩
        rw [← hpiece, hsplit]
        simp
      have hrest := ih (b := b ++ [x]) (by simp [hsplit])
        (by simpa using hfuel)
      rw [off_concat] at hrest
      rw [walkIds, if_pos hstart, h.next hsplit, Option.bind_eq_bind, Option.bind_some,
        rankOf_occurs hstop hoccurs (ne_nil_of_length_pos hx), Option.bind_some, hrest]
      rfl

theorem mem_pushAll {entries : List (Nat × Nat)} {heap : List Nat} {key : Nat} :
    key ∈ entries.foldl (fun heap entry => pushPair heap entry.1 entry.2) heap ↔
      (∃ entry ∈ entries, entry.1 ≠ noRank ∧ key = packKey entry.1 entry.2) ∨ key ∈ heap := by
  induction entries generalizing heap with
  | nil => simp
  | cons entry entries ih =>
    rw [foldl_cons, ih, mem_pushPair]
    simp only [mem_cons, or_and_right, exists_or, exists_eq_left]
    rw [or_left_comm, or_assoc]

theorem length_pushAll (entries : List (Nat × Nat)) (heap : List Nat) :
    (entries.foldl (fun heap entry => pushPair heap entry.1 entry.2) heap).length ≤
      heap.length + entries.length := by
  induction entries generalizing heap with
  | nil => exact le_rfl
  | cons entry entries ih =>
    have := ih (pushPair heap entry.1 entry.2)
    have := length_pushPair heap entry.1 entry.2
    rw [foldl_cons, length_cons]
    omega

theorem off_bytes (bytes : Bytes) : off (bytes.map ([·])) = bytes.length := by
  rw [off, flatten_bytes]

theorem bytes_split {bytes : Bytes} {b a : List Bytes} {x : Bytes}
    (h : bytes.map ([·]) = b ++ x :: a) : off b + a.length + 1 = bytes.length ∧ x.length = 1 := by
  obtain ⟨before, rest, rfl, rfl, hrest⟩ := map_eq_append_iff.mp h
  obtain ⟨byte, after, rfl, rfl, rfl⟩ := map_eq_cons_iff.mp hrest
  simp only [off_bytes, length_map, length_append, length_cons]
  exact ⟨rfl, rfl⟩

theorem bytePairs_split (find : Bytes → Nat) {bytes : Bytes} {b a : List Bytes} {x y : Bytes}
    (h : bytes.map ([·]) = b ++ x :: y :: a) :
    (bytePairs find bytes)[off b]? = some (find (x ++ y)) := by
  obtain ⟨before, rest, rfl, rfl, hrest⟩ := map_eq_append_iff.mp h
  obtain ⟨byte, rest, rfl, rfl, htail⟩ := map_eq_cons_iff.mp hrest
  obtain ⟨next, after, rfl, rfl, rfl⟩ := map_eq_cons_iff.mp htail
  rw [off_bytes, bytePairs, getElem?_zipWith, getElem?_tail]
  simp

/-- The links, ranks and keys the heap engine starts from. -/
def startScratch (vocab : Vocab) (piece : Bytes) (scratch : Scratch) : Scratch :=
  { scratch with
    next := List.range' 1 piece.length
    prev := u32Max :: List.range (piece.length - 1)
    rank := bytePairs vocab.find piece ++ [noRank]
    heap := (bytePairs vocab.find piece).zipIdx.foldl
      (fun heap entry => pushPair heap entry.1 entry.2) [] }

theorem linked_startScratch (hranks : vocab.Ranks rank) (first : UInt8) (rest : Bytes)
    (scratch : Scratch) :
    Linked vocab rank (rest.length + 1) ((first :: rest).map ([·]))
      (startScratch vocab (first :: rest) scratch) where
  nextLength := by simp [startScratch]
  prevLength := by simp [startScratch]
  rankLength := by simp [startScratch, length_bytePairs]
  next := by
    intro b x a hsplit
    obtain ⟨hsize, hx⟩ := bytes_split hsplit
    rw [length_cons] at hsize
    rw [hx, startScratch, length_cons, getElem?_range' (by omega), Nat.one_mul, Nat.add_comm]
  first := rfl
  prev := by
    intro b w x a hsplit
    obtain ⟨hsize, hw⟩ := bytes_split hsplit
    simp only [length_cons] at hsize
    rw [hw, startScratch, length_cons, getElem?_cons_succ, getElem?_range (by omega)]
  pair := by
    intro b x y a hsplit
    have hpair := bytePairs_split vocab.find hsplit
    rw [startScratch, getElem?_append_left (List.getElem?_eq_some_iff.mp hpair).1, hpair]
  last := by
    intro b x hsplit
    have hsize := (bytes_split hsplit).1
    simp only [length_cons, length_nil, Nat.add_zero, Nat.add_right_cancel_iff] at hsize
    rw [startScratch, getElem?_append_right (by rw [length_bytePairs]; omega), length_bytePairs,
      hsize, Nat.sub_self]
    rfl
  merged := by
    intro j hj hfree
    refine absurd (off_bytes ((first :: rest).take j)) ?_
    have hdrop : (first :: rest).drop j ≠ [] := by
      rw [Ne, drop_eq_nil_iff, length_cons]
      omega
    obtain ⟨byte, after, hafter⟩ := exists_cons_of_ne_nil hdrop
    have hne := hfree (((first :: rest).take j).map ([·])) [byte] (after.map ([·])) (by
      rw [← map_cons (f := ([·])), ← hafter, ← map_append, take_append_drop])
    rw [length_take, length_cons, Nat.min_eq_left (by omega)]
    exact hne
  live := by
    intro b x y a r hsplit hr
    have hpair := bytePairs_split vocab.find hsplit
    rw [hranks.find_of_some hr] at hpair
    refine mem_pushAll.mpr (.inl ⟨(r, off b), ?_, (hranks.lt_noRank hr).ne, rfl⟩)
    exact mem_zipIdx_iff_getElem?.mpr hpair
  keys := by
    intro key hkey
    rcases mem_pushAll.mp hkey with ⟨⟨r, position⟩, hentry, hreal, rfl⟩ | hnil
    · have hpair := mem_zipIdx_iff_getElem?.mp hentry
      have hlt := (List.getElem?_eq_some_iff.mp hpair).1
      rw [length_bytePairs] at hlt
      obtain ⟨x, y, hfind⟩ : ∃ x y, vocab.find [x, y] = r := by
        rw [bytePairs, getElem?_zipWith_eq_some] at hpair
        obtain ⟨x, y, -, -, hfind⟩ := hpair
        exact ⟨x, y, hfind⟩
      have hfound : vocab.find [x, y] < noRank :=
        lt_of_le_of_ne (hranks.find_le _) (by rw [hfind]; exact hreal)
      refine ⟨r, position, rfl, ?_, by simp only at hlt; omega⟩
      rw [← hfind]
      exact hranks.real _ _ (hranks.rank_of_find_lt hfound)
    · cases hnil

theorem exists_mergeHeap (hranks : vocab.Ranks rank) (hstart : start + 2 ≤ stop)
    (hstop : stop ≤ text.length) (hlength : stop - start < 2 ^ 32) (scratch : Scratch)
    (out : List Nat) :
    ∃ final scratch', Merges rank ((slice text start stop).map ([·])) final ∧
      mergeHeap vocab text start stop scratch out =
        some (scratch', out ++ final.map vocab.find) := by
  have hsize : (slice text start stop).length = stop - start := length_slice hstop
  obtain ⟨first, rest, hpiece⟩ : ∃ first rest, slice text start stop = first :: rest :=
    exists_cons_of_length_pos (by omega)
  have hrest := hsize
  rw [hpiece, length_cons] at hrest
  have hlinked := linked_startScratch hranks first rest scratch
  have hheap : (startScratch vocab (first :: rest) scratch).heap.length ≤ rest.length := by
    have := length_pushAll (bytePairs vocab.find (first :: rest)).zipIdx []
    rw [length_zipIdx, length_bytePairs, length_nil, Nat.zero_add] at this
    exact this
  rw [← hpiece] at hlinked hheap
  obtain ⟨final, s, hmerges, hloop, hdone⟩ := exists_heapLoop hranks hstop
    (by omega) (4 * (rest.length + 1)) hlinked
    (fun part hpart => length_pos_of_ne_nil (bytes_ne_nil _ part hpart)) (flatten_bytes _)
    (by rw [off_bytes]; omega) (by rw [length_map]; omega)
  obtain ⟨hfinal, hne⟩ := merged_parts hmerges
  have hnonempty := fun part hpart => length_pos_of_ne_nil (hne part hpart)
  have hends : off final = rest.length + 1 := by
    rw [off, hfinal]
    omega
  have hfew : final.length ≤ rest.length + 1 := by
    rw [← hends]
    exact length_le_off hnonempty
  have hids := walkIds_eq hstop hdone hnonempty hfinal hends (b := []) rfl hfew
  have hn : asU32 (rest.length + 1) = rest.length + 1 := Nat.mod_eq_of_lt (by omega)
  have hpairs := mapM_pairAt vocab (first :: rest)
  rw [length_cons, Nat.add_sub_cancel] at hpairs
  rw [hpiece] at hloop
  simp only [startScratch, length_cons, Nat.add_sub_cancel] at hloop
  refine ⟨final, s, hmerges, ?_⟩
  simp only [mergeHeap, checkedSlice_eq_some (show start ≤ stop by omega) hstop, hpiece,
    length_cons, checkedSub_of_le (Nat.le_add_left 1 rest.length), Nat.add_sub_cancel, hpairs,
    hn, hloop, some_bind]
  rw [← off_nil, hids]
  rfl

end Loop

end

end Eidnara.Tokenizer
