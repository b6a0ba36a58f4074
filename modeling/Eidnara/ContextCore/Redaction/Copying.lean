import Eidnara.ContextCore.Redaction.Windows

/-!
# Scanning bytes that are not text

`detect_copying` of `redaction.rs`: the lossy decoding of a byte sequence is copied into a buffer
of one window.  When the next character has no room, the buffer is scanned and slides on to its
overlap.
-/

namespace Eidnara.ContextCore.Redaction

open Lib Utf8 List

/-- A stretch of valid characters and the invalid bytes that end it. -/
structure Utf8Chunk where
  valid : List Char
  invalid : Bytes

def replacementCharacter : Char := '�'

def Utf8Chunk.lossy (chunk : Utf8Chunk) : List Char :=
  chunk.valid ++ if chunk.invalid = [] then [] else [replacementCharacter]

def fromUtf8Lossy (chunks : List Utf8Chunk) : List Char := chunks.flatMap Utf8Chunk.lossy

/-- The buffer, the offset of its start in the lossy text, and how far that is claimed. -/
structure Sliding where
  buffer : List Char
  start : Nat
  claimedTo : Nat

inductive Halt where
  | failed (kind : RedactionErrorKind)
  | detected
  | panicked
deriving DecidableEq, Repr

variable {Rule : Type}

def windowAdvance (window : List Char) : Nat :=
  charFloor window ((utf8 window).length - windowOverlapBytes)

def slide (scan : Scanner Rule) (sliding : Sliding) : Except Halt Sliding :=
  match findings scan sliding.claimedTo sliding.buffer sliding.start false with
  | .error kind => .error (.failed kind)
  | .ok (kept, claimedTo) =>
    if kept.isEmpty then
      let cut := windowAdvance sliding.buffer
      match sliceFrom sliding.buffer cut with
      | some rest => .ok ⟨rest, sliding.start + cut, claimedTo⟩
      | none => .error .panicked
    else .error .detected

def pushValid (scan : Scanner Rule) : Nat → List Char → Sliding → Except Halt Sliding
  | _, [], sliding => .ok sliding
  | 0, _ :: _, _ => .error .panicked
  | fuel + 1, c :: valid, sliding =>
    match checkedSub maxRedactableBytes (utf8 sliding.buffer).length with
    | none => .error .panicked
    | some room =>
      let take := charFloor (c :: valid) room
      if take = 0 then slide scan sliding >>= pushValid scan fuel (c :: valid)
      else
        match sliceChars (c :: valid) 0 take, sliceFrom (c :: valid) take with
        | some front, some rest =>
          pushValid scan fuel rest { sliding with buffer := sliding.buffer ++ front }
        | _, _ => .error .panicked

/-- A copy takes one round, and a slide before it another. -/
def pushChunk (scan : Scanner Rule) (sliding : Sliding) (chunk : Utf8Chunk) :
    Except Halt Sliding := do
  let copied ← pushValid scan (2 * chunk.valid.length) chunk.valid sliding
  if chunk.invalid = [] then .ok copied
  else do
    let room ←
      if maxRedactableBytes < (utf8 copied.buffer).length + (utf8 [replacementCharacter]).length
      then slide scan copied else .ok copied
    .ok { room with buffer := room.buffer ++ [replacementCharacter] }

/-- `detect_copying` over the chunks of the bytes.  `none` stands for a panic. -/
def detectCopying (scan : Scanner Rule) (chunks : List Utf8Chunk) :
    Option (Except RedactionErrorKind Bool) :=
  match chunks.foldlM (pushChunk scan) ⟨[], 0, 0⟩ with
  | .error (.failed kind) => some (.error kind)
  | .error .detected => some (.ok true)
  | .error .panicked => none
  | .ok sliding =>
    some ((findings scan sliding.claimedTo sliding.buffer sliding.start true).map
      fun kept => !kept.1.isEmpty)

/-! ## One slide -/

section

variable {scan : Scanner Rule} {found : List Char → List (Finding Rule)}

/-- Of the text, `done` is copied.  What is no longer in the buffer is claimed and holds no
finding. -/
structure Sliding.Ok (found : List Char → List (Finding Rule)) (text done : List Char)
    (sliding : Sliding) : Prop where
  split : ∃ dropped, done = dropped ++ sliding.buffer ∧ sliding.start = (utf8 dropped).length
  room : (utf8 sliding.buffer).length ≤ maxRedactableBytes
  behind : sliding.start = 0 ∨
    sliding.start + edgeMarginBytes + maxMatchBytes ≤ sliding.claimedTo
  clean : ∀ finding ∈ found text, sliding.claimedTo < finding.fullSpan.stop

/-- How copying `done` of the text ends: with a buffer in order, or early with a finding. -/
def Copied (found : List Char → List (Finding Rule)) (text done : List Char) :
    Except Halt Sliding → Prop
  | .ok sliding => sliding.Ok found text done
  | .error .detected => ∃ finding, finding ∈ found text
  | .error _ => False

variable {text done : List Char}

theorem Copied.bind {later : List Char} {result : Except Halt Sliding}
    {next : Sliding → Except Halt Sliding} (h : Copied found text done result)
    (hnext : ∀ sliding, result = .ok sliding → sliding.Ok found text done →
      Copied found text later (next sliding)) :
    Copied found text later (result >>= next) := by
  cases result with
  | ok sliding => exact hnext sliding rfl h
  | error halt =>
    cases halt with
    | detected => exact h
    | failed kind => exact h
    | panicked => exact h

variable {todo : List Char} {sliding : Sliding}

theorem slide_copied (hlocal : Local found) (hreports : Reports scan found)
    (htext : text = done ++ todo) (hok : sliding.Ok found text done)
    (hfull : maxRedactableBytes ≤ (utf8 sliding.buffer).length + 3) :
    Copied found text done (slide scan sliding) ∧
      ∀ slid, slide scan sliding = .ok slid →
        (utf8 slid.buffer).length ≤ windowOverlapBytes + 3 := by
  obtain ⟨dropped, hdone, hstart⟩ := hok.split
  obtain ⟨kept, hfindings, hkept⟩ := @findings_window Rule scan found hlocal hreports dropped
    sliding.buffer todo sliding.claimedTo sliding.start false hstart hok.behind nofun hok.room
  rw [← hdone, ← htext] at hkept
  simp only [Bool.false_eq_true, if_false] at hfindings hkept
  have hwindow := advance_le_window
  have hpos := advance_pos
  have hmatch := match_le_overlap
  obtain ⟨rest, hrest⟩ := Option.isSome_iff_exists.mp
    (isCharBoundary_charFloor sliding.buffer ((utf8 sliding.buffer).length - windowOverlapBytes))
  obtain ⟨front, hbuffer, hfront⟩ := sliceFrom_eq_some hrest
  have hlength : (utf8 sliding.buffer).length = (utf8 front).length + (utf8 rest).length := by
    rw [hbuffer, utf8_append, length_append]
  have hcutLe := charFloor_le sliding.buffer ((utf8 sliding.buffer).length - windowOverlapBytes)
  have hcutGe := @le_charFloor sliding.buffer
    ((utf8 sliding.buffer).length - windowOverlapBytes) (Nat.sub_le _ _)
  unfold slide
  simp only [hfindings, windowAdvance, hrest]
  split_ifs with hempty
  · have hnone : kept = [] := List.isEmpty_iff.mp hempty
    refine ⟨⟨⟨dropped ++ front, ?_, ?_⟩, ?_, ?_, ?_⟩, ?_⟩
    · rw [hdone, hbuffer, append_assoc]
    · simp only
      rw [utf8_append, length_append]
      omega
    · have hroom := hok.room
      simp only
      omega
    · right
      simp only
      omega
    · intro finding hfound
      have hclean := hok.clean finding hfound
      by_contra hstop
      have hmem := (hkept finding).mpr ⟨hfound, hclean, Nat.le_of_not_lt hstop⟩
      rw [hnone] at hmem
      cases hmem
    · intro slid hslid
      obtain rfl := Except.ok.inj hslid
      simp only
      omega
  · refine ⟨?_, nofun⟩
    obtain ⟨finding, hfinding⟩ := exists_mem_of_ne_nil kept (by simpa using hempty)
    exact ⟨_, ((hkept _).mp (mem_map_of_mem hfinding)).1⟩

/-! ## The whole sequence -/

theorem Sliding.Ok.push {front : List Char} (hok : sliding.Ok found text done)
    (hroom : (utf8 sliding.buffer).length + (utf8 front).length ≤ maxRedactableBytes) :
    Sliding.Ok found text (done ++ front) { sliding with buffer := sliding.buffer ++ front } := by
  obtain ⟨dropped, hdone, hstart⟩ := hok.split
  refine ⟨⟨dropped, ?_, hstart⟩, ?_, hok.behind, hok.clean⟩
  · rw [hdone, append_assoc]
  · simp only
    rwa [utf8_append, length_append]

theorem lt_of_charFloor_eq_zero {c : Char} {valid : List Char} {room : Nat}
    (h : charFloor (c :: valid) room = 0) : room < (utf8 [c]).length := by
  by_contra hle
  have hpos := utf8_length_pos c
  have hge := @charFloor_greatest (c :: valid) room (utf8 [c]).length (Nat.le_of_not_lt hle)
    (by rw [length_utf8_cons c valid]; omega) (isCharBoundary_iff.mpr ⟨[c], valid, rfl, rfl⟩)
  omega

theorem pushValid_copied (hlocal : Local found) (hreports : Reports scan found) {valid : List Char}
    {fuel : Nat} (htext : text = done ++ valid ++ todo) (hok : sliding.Ok found text done)
    (hfuel : 2 * valid.length ≤ fuel ∨ 2 * valid.length ≤ fuel + 1 ∧
      (utf8 sliding.buffer).length + 4 ≤ maxRedactableBytes) :
    Copied found text (done ++ valid) (pushValid scan fuel valid sliding) := by
  induction fuel generalizing done valid sliding with
  | zero =>
    have hnil : valid = [] := length_eq_zero_iff.mp (by omega)
    subst hnil
    rw [append_nil, pushValid]
    exact hok
  | succ fuel ih =>
    cases valid with
    | nil =>
      rw [append_nil, pushValid]
      exact hok
    | cons c valid =>
      rw [pushValid, checkedSub_of_le hok.room]
      simp only
      split_ifs with htake
      · -- the buffer is full: after the slide there is room
        have hfour := utf8_length_le_four c
        have hlt := lt_of_charFloor_eq_zero htake
        have hwindow := advance_le_window
        have hpos := advance_pos
        obtain ⟨hslide, hsmall⟩ := slide_copied hlocal hreports
          (htext.trans (append_assoc ..)) hok (by omega)
        refine hslide.bind fun slid hslid hslidOk => ih htext hslidOk (.inr ⟨?_, ?_⟩)
        · omega
        · have hle := hsmall slid hslid
          omega
      · obtain ⟨rest, hrest⟩ := Option.isSome_iff_exists.mp (isCharBoundary_charFloor
          (c :: valid) (maxRedactableBytes - (utf8 sliding.buffer).length))
        obtain ⟨front, hsplit, hfront⟩ := sliceFrom_eq_some hrest
        have htakeLe := charFloor_le (c :: valid)
          (maxRedactableBytes - (utf8 sliding.buffer).length)
        have hroom := hok.room
        have hslice : sliceChars (c :: valid) 0 (charFloor (c :: valid)
            (maxRedactableBytes - (utf8 sliding.buffer).length)) = some front := by
          have happend := sliceChars_append [] front rest
          rw [← hfront, hsplit]
          simpa [utf8] using happend
        rw [hrest, hslice, hsplit, ← append_assoc]
        have hshorter : rest.length < (c :: valid).length := by
          have hne : front ≠ [] := by
            rintro rfl
            exact htake hfront.symm
          have hfrontPos := length_pos_of_ne_nil hne
          rw [hsplit, length_append]
          omega
        refine ih ?_ (hok.push (by omega)) (.inl (by omega))
        rw [htext, hsplit, ← append_assoc done]

theorem pushChunk_copied (hlocal : Local found) (hreports : Reports scan found) {chunk : Utf8Chunk}
    (htext : text = done ++ chunk.lossy ++ todo) (hok : sliding.Ok found text done) :
    Copied found text (done ++ chunk.lossy) (pushChunk scan sliding chunk) := by
  unfold pushChunk
  unfold Utf8Chunk.lossy at htext ⊢
  by_cases hinvalid : chunk.invalid = []
  · simp only [hinvalid, if_true, append_nil] at htext ⊢
    exact (pushValid_copied hlocal hreports htext hok (.inl le_rfl)).bind
      fun copied _ hcopied => hcopied
  · simp only [hinvalid, if_false] at htext ⊢
    have hthree : (utf8 [replacementCharacter]).length = 3 := by decide
    have hwindow := advance_le_window
    have hpos := advance_pos
    rw [← append_assoc] at htext ⊢
    rw [append_assoc] at htext
    refine (pushValid_copied hlocal hreports htext hok (.inl le_rfl)).bind
      fun copied _ hcopied => ?_
    split_ifs with hfull
    · obtain ⟨hslide, hsmall⟩ := slide_copied hlocal hreports htext hcopied (by omega)
      refine hslide.bind fun slid hslid hslidOk => hslidOk.push ?_
      have hle := hsmall slid hslid
      omega
    · exact hcopied.push (by omega)

theorem foldlM_copied (hlocal : Local found) (hreports : Reports scan found)
    {chunks : List Utf8Chunk} (htext : text = done ++ fromUtf8Lossy chunks)
    (hok : sliding.Ok found text done) :
    Copied found text text (chunks.foldlM (pushChunk scan) sliding) := by
  induction chunks generalizing done sliding with
  | nil =>
    have hdone : text = done := htext.trans (append_nil done)
    subst hdone
    exact hok
  | cons chunk chunks ih =>
    rw [fromUtf8Lossy, flatMap_cons, ← append_assoc] at htext
    rw [foldlM_cons]
    exact (pushChunk_copied hlocal hreports htext hok).bind fun pushed _ hpushed =>
      ih htext hpushed

theorem detectCopying_eq (hlocal : Local found) (hreports : Reports scan found)
    (chunks : List Utf8Chunk) :
    detectCopying scan chunks = some (.ok (!(found (fromUtf8Lossy chunks)).isEmpty)) := by
  have hstart : Sliding.Ok found (fromUtf8Lossy chunks) [] ⟨[], 0, 0⟩ :=
    ⟨⟨[], rfl, rfl⟩, Nat.zero_le _, .inl rfl, fun finding hfound =>
      Nat.zero_lt_of_lt (hlocal.nonempty _ finding hfound)⟩
  have hcopied := foldlM_copied hlocal hreports (nil_append _).symm hstart
  unfold detectCopying
  generalize chunks.foldlM (pushChunk scan) ⟨[], 0, 0⟩ = result at hcopied ⊢
  cases result with
  | error halt =>
    cases halt with
    | failed kind => exact hcopied.elim
    | panicked => exact hcopied.elim
    | detected =>
      obtain ⟨finding, hfound⟩ := hcopied
      simp [ne_nil_of_mem hfound]
  | ok sliding =>
    obtain ⟨dropped, hdone, hoffset⟩ := hcopied.split
    obtain ⟨kept, hfindings, hkept⟩ := @findings_window Rule scan found hlocal hreports dropped
      sliding.buffer [] sliding.claimedTo sliding.start true hoffset hcopied.behind
      (fun _ => rfl) hcopied.room
    rw [append_nil, ← hdone] at hkept
    have hend : (utf8 (fromUtf8Lossy chunks)).length =
        sliding.start + (utf8 sliding.buffer).length := by
      rw [hdone, utf8_append, length_append, hoffset]
    have hall : ∀ finding, finding ∈ kept.map (Finding.shift · sliding.start) ↔
        finding ∈ found (fromUtf8Lossy chunks) := by
      intro finding
      rw [hkept, if_pos rfl, ← hend]
      exact ⟨fun h => h.1, fun h => ⟨h, hcopied.clean finding h, hlocal.within _ finding h⟩⟩
    have hempty : kept.isEmpty = (found (fromUtf8Lossy chunks)).isEmpty := by
      rw [Bool.eq_iff_iff, List.isEmpty_iff, List.isEmpty_iff, ← map_eq_nil_iff,
        eq_nil_iff_forall_not_mem, eq_nil_iff_forall_not_mem]
      exact forall_congr' fun finding => not_congr (hall finding)
    simp only [hfindings, Except.map, hempty]

/-! ## Every finding once -/

/-- The walk ends at the end of the text, its windows are on character boundaries and not too
long, and every finding of the text is kept by exactly one of them, and nothing else is.  The
copying scan of bytes finds something exactly if their lossy text has a finding. -/
theorem windows_keep_each_finding_once [DecidableEq Rule] (hlocal : Local found)
    (hreports : Reports scan found) :
    (∀ input, ∃ windows kept, scanWindows input = some windows ∧
      (∀ window ∈ windows, isCharBoundary input window.1 = true ∧
        isCharBoundary input window.2 = true ∧ window.1 ≤ window.2 ∧
        window.2 - window.1 ≤ maxRedactableBytes) ∧
      windows.getLast?.map Prod.snd = some (utf8 input).length ∧
      keptInWindows scan input windows 0 = .ok kept ∧
      (∀ finding, kept.countP (fun findings => finding ∈ findings) =
        if finding ∈ found input then 1 else 0) ∧
      detectWindowed scan input windows 0 = .ok (!(found input).isEmpty)) ∧
    (∀ (utf8Chunks : Bytes → List Utf8Chunk) (bytes : Bytes),
      detectCopying scan (utf8Chunks bytes) =
        some (.ok (!(found (fromUtf8Lossy (utf8Chunks bytes))).isEmpty))) := by
  refine ⟨fun input => ?_, fun utf8Chunks bytes =>
    detectCopying_eq hlocal hreports (utf8Chunks bytes)⟩
  obtain ⟨windows, hwindows, hcovers⟩ := scanWindows_covers input
  obtain ⟨kept, hkept, hcounts⟩ :=
    keptInWindows_counts hlocal hreports hcovers (Nat.zero_le _) (.inl rfl)
  refine ⟨windows, kept, hwindows, hcovers.fits, hcovers.getLast?, hkept, fun finding => ?_,
    detectWindowed_iff hlocal hreports hcovers⟩
  rw [hcounts]
  by_cases hfound : finding ∈ found input
  · have hpos : 0 < finding.fullSpan.stop :=
      Nat.zero_lt_of_lt (hlocal.nonempty input finding hfound)
    rw [if_pos ⟨hfound, hpos⟩, if_pos hfound]
  · rw [if_neg fun h => hfound h.1, if_neg hfound]

end

/-- A scanner that finds every `#`, from an offset on. -/
def hashesFrom : Nat → List Char → List (Finding Unit)
  | _, [] => []
  | offset, c :: text =>
    (if c = '#' then [⟨(), offset, offset + 1, Nat.le_succ offset⟩] else []) ++
      hashesFrom (offset + (utf8 [c]).length) text

theorem mem_hashesFrom {offset : Nat} {text : List Char} {finding : Finding Unit} :
    finding ∈ hashesFrom offset text ↔ ∃ a b, text = a ++ '#' :: b ∧
      finding.fullSpan.start = offset + (utf8 a).length ∧
      finding.fullSpan.stop = finding.fullSpan.start + 1 := by
  induction text generalizing offset with
  | nil => simp [hashesFrom]
  | cons c text ih =>
    rw [hashesFrom, mem_append, ih]
    constructor
    · rintro (h | ⟨a, b, rfl, hstart, hstop⟩)
      · split_ifs at h with hc
        · obtain rfl := mem_singleton.mp h
          exact ⟨[], text, by rw [hc]; rfl, rfl, rfl⟩
        · cases h
      · refine ⟨c :: a, b, rfl, ?_, hstop⟩
        rw [hstart, length_utf8_cons c a, Nat.add_assoc]
    · rintro ⟨a, b, hsplit, hstart, hstop⟩
      cases a with
      | nil =>
        obtain ⟨rfl, rfl⟩ := List.cons.inj hsplit
        obtain ⟨rule, start, stop, ordered⟩ := finding
        simp only [utf8, flatMap_nil, length_nil, Nat.add_zero] at hstart hstop
        subst hstart hstop
        exact .inl (by simp)
      | cons c' a =>
        obtain ⟨rfl, rfl⟩ := List.cons.inj hsplit
        refine .inr ⟨a, b, rfl, ?_, hstop⟩
        rw [hstart, length_utf8_cons c a, Nat.add_assoc]

theorem local_hashes : Local (hashesFrom 0) where
  nonempty text finding h := by
    obtain ⟨a, b, -, -, hstop⟩ := mem_hashesFrom.mp h
    omega
  short text finding h := by
    obtain ⟨a, b, -, -, hstop⟩ := mem_hashesFrom.mp h
    have hmatch : 1 ≤ maxMatchBytes := by decide
    omega
  within text finding h := by
    obtain ⟨a, b, rfl, hstart, hstop⟩ := mem_hashesFrom.mp h
    have hpos := utf8_length_pos '#'
    rw [utf8_append, length_append, length_utf8_cons '#' b]
    omega
  slice before text after finding _ hwithin _ _ := by
    rw [mem_hashesFrom, mem_hashesFrom]
    constructor
    · rintro ⟨a, b, rfl, hstart, hstop⟩
      refine ⟨before ++ a, b ++ after, by simp, ?_, ?_⟩
      · rw [utf8_append, length_append]
        simp only [Finding.shift]
        omega
      · simp only [Finding.shift]
        omega
    · rintro ⟨a, b, hsplit, hstart, hstop⟩
      simp only [Finding.shift] at hstart hstop
      have hcut : ∃ inner, a = before ++ inner ∧ text ++ after = inner ++ '#' :: b := by
        rw [append_assoc] at hsplit
        rcases append_eq_append_iff.mp hsplit with ⟨inner, rfl, hrest⟩ | ⟨extra, rfl, hrest⟩
        · exact ⟨inner, rfl, hrest⟩
        · rw [utf8_append, length_append] at hstart
          have hextra : extra = [] := length_utf8_eq_zero.mp (by omega)
          subst hextra
          exact ⟨[], by simp, hrest.symm⟩
      obtain ⟨inner, rfl, hrest⟩ := hcut
      rw [utf8_append, length_append] at hstart
      rcases append_eq_append_iff.mp hrest with ⟨extra, rfl, -⟩ | ⟨tail, rfl, htail⟩
      · rw [utf8_append, length_append] at hstart
        omega
      · cases tail with
        | nil =>
          rw [append_nil] at hwithin
          omega
        | cons c tail =>
          obtain ⟨rfl, -⟩ := List.cons.inj htail
          exact ⟨inner, tail, rfl, by omega, by omega⟩

/-- A text that no single window holds. -/
def longText : List Char := '#' :: replicate maxRedactableBytes 'a'

theorem length_longText : (utf8 longText).length = maxRedactableBytes + 1 := by
  have hletters (n : Nat) : (utf8 (replicate n 'a')).length = n := by
    induction n with
    | zero => rfl
    | succ n ih =>
      rw [replicate_succ, length_utf8_cons, ih, Nat.add_comm]
      rfl
  rw [longText, length_utf8_cons, hletters, Nat.add_comm]
  rfl

theorem windows_keep_each_finding_once_hash :
    ∃ windows kept, scanWindows longText = some windows ∧ 1 < windows.length ∧
      keptInWindows (fun text => .ok ⟨hashesFrom 0 text, none⟩) longText windows 0 = .ok kept ∧
      kept.countP (fun findings => (⟨(), 0, 1, by decide⟩ : Finding Unit) ∈ findings) = 1 ∧
      detectCopying (fun text => .ok ⟨hashesFrom 0 text, none⟩)
        [⟨"a".toList, [0xff]⟩, ⟨"#".toList, []⟩] = some (.ok true) := by
  have htheorem := @windows_keep_each_finding_once Unit
    (fun text => .ok ⟨hashesFrom 0 text, none⟩) (hashesFrom 0) _ local_hashes fun _ _ => rfl
  obtain ⟨windows, kept, hwindows, -, -, hkept, hcounts, -⟩ := htheorem.1 longText
  refine ⟨windows, kept, hwindows, ?_, hkept, ?_, ?_⟩
  · obtain ⟨others, hothers, hcovers⟩ := scanWindows_covers longText
    obtain rfl := Option.some.inj (hwindows.symm.trans hothers)
    have hlength := length_longText
    cases hcovers with
    | last _ _ _ hshort => omega
    | more _ _ _ _ _ _ _ hrest => cases hrest <;> simp
  · rw [hcounts, if_pos]
    exact mem_hashesFrom.mpr ⟨[], _, rfl, rfl, rfl⟩
  · exact htheorem.2 (fun _ => [⟨"a".toList, [0xff]⟩, ⟨"#".toList, []⟩]) []

end Eidnara.ContextCore.Redaction
