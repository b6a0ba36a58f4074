import Eidnara.Lib.Slices
import Eidnara.Lib.Utf8

/-!
# Keyword search with charged work

`evaluator.rs`: a rule's keywords are looked for one needle at a time, each probe charged with
the length of the haystack, or in one pass of a prepared matcher that charges what those probes
would have charged.  A charge is a pair of the result and the work it leaves.  The matcher is a
parameter, as are the byte searches; `none` is an arithmetic overflow.
-/

namespace Eidnara.SecretScanner

open Lib Utf8 List

inductive Abort where
  | work
deriving DecidableEq, Repr

abbrev Charged (α : Type) := Except Abort α × Nat

def addWork (total amount limit : Nat) : Charged Unit :=
  match checkedAdd 64 total amount with
  | none => (.error .work, total)
  | some sum => (if limit < sum then .error .work else .ok (), sum)

def toAsciiLowercase (byte : UInt8) : UInt8 := if 65 ≤ byte ∧ byte ≤ 90 then byte + 32 else byte

def toAsciiUppercase (byte : UInt8) : UInt8 := if 97 ≤ byte ∧ byte ≤ 122 then byte - 32 else byte

def eqIgnoreAsciiCase (a b : Bytes) : Bool := a.map toAsciiLowercase = b.map toAsciiLowercase

/-- The byte searches, each of which finds the first place. -/
structure ByteSearch where
  memchr : UInt8 → Bytes → Option Nat
  memchr2 : UInt8 → UInt8 → Bytes → Option Nat
  memchr_eq : ∀ byte haystack, memchr byte haystack = haystack.findIdx? (· = byte)
  memchr2_eq : ∀ a b haystack, memchr2 a b haystack = haystack.findIdx? fun x => x = a ∨ x = b

variable (search : ByteSearch)

/-- `memchr`, or `memchr2` where the case of the byte matters. -/
def memchrIgnoreCase (byte : UInt8) (haystack : Bytes) : Option Nat :=
  let lower := toAsciiLowercase byte
  let upper := toAsciiUppercase byte
  if lower = upper then search.memchr lower haystack else search.memchr2 lower upper haystack

/-- The loop of `find_ignore_ascii_case`; `limit` is the last start and one more. -/
def findFrom (haystack needle : Bytes) (first : UInt8) (limit offset : Nat) : Bool :=
  if offset < limit then
    match memchrIgnoreCase search first (slice haystack offset limit) with
    | none => false
    | some position =>
      let start := offset + position
      if eqIgnoreAsciiCase (slice haystack start (start + needle.length)) needle then true
      else findFrom haystack needle first limit (start + 1)
  else false
termination_by limit - offset

def findIgnoreAsciiCase (haystack needle : Bytes) : Bool :=
  match needle with
  | [] => false
  | first :: _ =>
    if haystack.length < needle.length then false
    else findFrom search haystack needle first (haystack.length - needle.length + 1) 0

def containsChargedIgnoreCase (haystack needle : Bytes) (work limit : Nat) : Charged Bool :=
  match addWork work haystack.length limit with
  | (.error abort, work) => (.error abort, work)
  | (.ok (), work) => (.ok (findIgnoreAsciiCase search haystack needle), work)

def containsAnyChargedIgnoreCaseScalar (haystack : Bytes) : List Bytes → Nat → Nat → Charged Bool
  | [], work, _ => (.ok false, work)
  | needle :: needles, work, limit =>
    match containsChargedIgnoreCase search haystack needle work limit with
    | (.error abort, work) => (.error abort, work)
    | (.ok true, work) => (.ok true, work)
    | (.ok false, work) => containsAnyChargedIgnoreCaseScalar haystack needles work limit

/-- An occurrence that the matcher reports: the index of the needle and where it stands. -/
structure Match where
  pattern : Nat
  start : Nat
  stop : Nat
deriving DecidableEq, Repr

abbrev Matcher := Bytes → List Match

/-- The loop over the reported occurrences, left at the lowest possible index. -/
def firstMatch : List Match → Option Nat → Option Nat
  | [], lowest => lowest
  | found :: rest, lowest =>
    let lowest := if lowest.all (found.pattern < ·) then some found.pattern else lowest
    if found.pattern = 0 then lowest else firstMatch rest lowest

def containsAnyChargedIgnoreCase (haystack : Bytes) (needles : List Bytes)
    (matcher : Option Matcher) (work limit : Nat) : Option (Charged Bool) :=
  let scalar := containsAnyChargedIgnoreCaseScalar search haystack needles work limit
  match matcher, checkedMul 64 haystack.length needles.length with
  | some matcher, some fullCharge =>
    if (checkedAdd 64 work fullCharge).all (limit < ·) then some scalar
    else do
      let first := firstMatch (matcher haystack) none
      let probes := (first.map (· + 1)).getD needles.length
      let charge ← checkedMul 64 haystack.length probes
      let work ← checkedAdd 64 work charge
      some (.ok first.isSome, work)
  | _, _ => some scalar

/-! ## One needle -/

variable {search}

/-- The needle stands at `start`, up to ASCII case. -/
def StandsAt (haystack needle : Bytes) (start : Nat) : Prop :=
  start + needle.length ≤ haystack.length ∧
    eqIgnoreAsciiCase (slice haystack start (start + needle.length)) needle = true

theorem toAsciiLowercase_eq_iff {a b : UInt8} : toAsciiLowercase a = toAsciiLowercase b ↔
    a = toAsciiLowercase b ∨ a = toAsciiUppercase b := by
  simp only [toAsciiLowercase, toAsciiUppercase, UInt8.le_iff_toNat_le, ← UInt8.toNat_inj]
  have ha := a.toNat_lt
  have hb := b.toNat_lt
  split_ifs <;> simp_all [UInt8.toNat_add, UInt8.toNat_sub] <;> omega

theorem memchrIgnoreCase_eq (byte : UInt8) (haystack : Bytes) :
    memchrIgnoreCase search byte haystack =
      haystack.findIdx? fun x => toAsciiLowercase x = toAsciiLowercase byte := by
  unfold memchrIgnoreCase
  simp only [search.memchr_eq, search.memchr2_eq, toAsciiLowercase_eq_iff]
  split_ifs with hsame
  · simp only [← hsame, or_self]
  · rfl

variable {haystack needle : Bytes} {first : UInt8} {limit offset start : Nat}

theorem StandsAt.head (h : StandsAt haystack (first :: needle) start) :
    ∃ x, haystack[start]? = some x ∧ toAsciiLowercase x = toAsciiLowercase first := by
  obtain ⟨hend, hequal⟩ := h
  rw [length_cons] at hend
  refine ⟨haystack[start], getElem?_eq_getElem (by omega), ?_⟩
  rw [eqIgnoreAsciiCase, decide_eq_true_eq, length_cons,
    ← slice_append_slice (show start ≤ start + 1 by omega)
      (show start + 1 ≤ start + (needle.length + 1) by omega), slice_one (by omega)] at hequal
  exact (List.cons.inj hequal).1

/-- The byte search stops no later than where the needle stands. -/
theorem StandsAt.memchr_le (h : StandsAt haystack (first :: needle) start) (hle : offset ≤ start)
    (hlimit : limit = haystack.length - (first :: needle).length + 1) :
    ∃ position, memchrIgnoreCase search first (slice haystack offset limit) = some position ∧
      offset + position ≤ start := by
  obtain ⟨x, hx, hfits⟩ := h.head
  have hend := h.1
  have hget : (slice haystack offset limit)[start - offset]? = some x := by
    rw [slice, getElem?_drop, getElem?_take, if_pos (by omega), Nat.add_sub_cancel' hle, hx]
  obtain ⟨hindex, hat⟩ := List.getElem?_eq_some_iff.mp hget
  rw [memchrIgnoreCase_eq, findIdx?_eq_some_of_exists ⟨x, mem_of_getElem? hget, by simp [hfits]⟩]
  refine ⟨_, rfl, not_lt.mp fun hlt => ?_⟩
  have hbefore : start - offset < findIdx (fun x => toAsciiLowercase x = toAsciiLowercase first)
      (slice haystack offset limit) := by
    omega
  have hmiss := not_of_lt_findIdx hbefore
  simp [hat, hfits] at hmiss

/-- The loop skips only starts whose first byte does not fit. -/
theorem findFrom_iff (hlimit : limit = haystack.length - (first :: needle).length + 1)
    (hlength : (first :: needle).length ≤ haystack.length) :
    findFrom search haystack (first :: needle) first limit offset = true ↔
      ∃ start, offset ≤ start ∧ StandsAt haystack (first :: needle) start := by
  fun_induction findFrom search haystack (first :: needle) first limit offset with
  | case1 offset hoffset hnone =>
    refine ⟨nofun, ?_⟩
    rintro ⟨start, hle, hstands⟩
    obtain ⟨position, hfound, -⟩ := hstands.memchr_le hle hlimit
    rw [hnone] at hfound
    cases hfound
  | case2 offset hoffset position hfound start hequal =>
    refine iff_of_true rfl ⟨start, Nat.le_add_right _ _, ?_, hequal⟩
    rw [memchrIgnoreCase_eq, findIdx?_eq_some_iff_findIdx_eq, slice, length_drop, length_take]
      at hfound
    omega
  | case3 offset hoffset position hfound start hdiffers ih =>
    rw [ih]
    constructor
    · rintro ⟨other, hle, hstands⟩
      exact ⟨other, by omega, hstands⟩
    · rintro ⟨other, hle, hstands⟩
      obtain ⟨position', hfound', hbefore⟩ := hstands.memchr_le hle hlimit
      obtain rfl := Option.some.inj (hfound.symm.trans hfound')
      have hother : start ≠ other := by
        rintro rfl
        exact hdiffers hstands.2
      exact ⟨other, by omega, hstands⟩
  | case4 offset hoffset =>
    refine ⟨nofun, ?_⟩
    rintro ⟨start, hle, hstands⟩
    have hend := hstands.1
    omega

theorem findIgnoreAsciiCase_iff (hneedle : needle ≠ []) :
    findIgnoreAsciiCase search haystack needle = true ↔
      ∃ start, StandsAt haystack needle start := by
  obtain ⟨first, needle, rfl⟩ := exists_cons_of_ne_nil hneedle
  simp only [findIgnoreAsciiCase]
  split_ifs with hlength
  · refine ⟨nofun, ?_⟩
    rintro ⟨start, hend, -⟩
    omega
  · rw [findFrom_iff rfl (not_lt.mp hlength)]
    simp only [Nat.zero_le, true_and]

/-! ## All needles -/

variable {needles : List Bytes} {work : Nat}

/-- With room for every probe the loop charges each needle up to the first that is found. -/
theorem scalar_eq (hroom : work + haystack.length * needles.length ≤ limit)
    (hword : work + haystack.length * needles.length < 2 ^ 64) :
    containsAnyChargedIgnoreCaseScalar search haystack needles work limit =
      (.ok (needles.findIdx? (findIgnoreAsciiCase search haystack)).isSome,
        work + haystack.length *
          ((needles.findIdx? (findIgnoreAsciiCase search haystack)).map (· + 1)).getD
            needles.length) := by
  induction needles generalizing work with
  | nil => rfl
  | cons needle needles ih =>
    rw [length_cons, Nat.mul_succ] at hroom hword
    have hcharge : addWork work haystack.length limit = (.ok (), work + haystack.length) := by
      rw [addWork, checkedAdd_of_lt (by omega)]
      simp only [if_neg (show ¬limit < work + haystack.length by omega)]
    rw [containsAnyChargedIgnoreCaseScalar, containsChargedIgnoreCase, hcharge, findIdx?_cons]
    cases hfound : findIgnoreAsciiCase search haystack needle with
    | true => simp
    | false =>
      simp only [ih (show work + haystack.length + haystack.length * needles.length ≤ limit by
        omega) (by omega)]
      cases needles.findIdx? (findIgnoreAsciiCase search haystack) with
      | none => simp [Nat.mul_succ]; omega
      | some index => simp [Nat.mul_succ]; omega

theorem firstMatch_eq (found : List Match) (lowest : Option Nat) :
    firstMatch found lowest = (lowest.toList ++ found.map Match.pattern).min? := by
  induction found generalizing lowest with
  | nil => cases lowest <;> rfl
  | cons found rest ih =>
    have hlowest : ∃ least,
        (if lowest.all (found.pattern < ·) then some found.pattern else lowest) = some least ∧
          least ≤ found.pattern ∧ ∀ tail : List Nat,
            (least :: tail).min? = (lowest.toList ++ found.pattern :: tail).min? := by
      cases lowest with
      | none => exact ⟨found.pattern, rfl, Nat.le_refl _, fun _ => rfl⟩
      | some low =>
        refine ⟨min low found.pattern, ?_, Nat.min_le_right _ _, fun tail => ?_⟩
        · simp only [Option.all_some, decide_eq_true_eq, Nat.min_def]
          split_ifs <;> first | rfl | omega
        · rfl
    obtain ⟨least, hleast, hle, hmin⟩ := hlowest
    simp only [firstMatch, hleast, map_cons, ← hmin]
    split_ifs with hzero
    · obtain rfl : least = 0 := by omega
      exact (min?_eq_some_iff.mpr ⟨mem_cons_self, fun _ _ => Nat.zero_le _⟩).symm
    · exact ih (some least)

/-- What the prepared search takes from its matcher: all overlapping occurrences of the needles,
and nothing else. -/
def Exact (needles : List Bytes) (matcher : Matcher) : Prop :=
  ∀ haystack found, found ∈ matcher haystack ↔
    ∃ needle, needles[found.pattern]? = some needle ∧
      found.stop = found.start + needle.length ∧ StandsAt haystack needle found.start

variable {matcher : Matcher}

variable (search) in
theorem firstMatch_matcher (hneedles : ∀ needle ∈ needles, needle ≠ [])
    (hexact : Exact needles matcher) (haystack : Bytes) :
    firstMatch (matcher haystack) none =
      needles.findIdx? (findIgnoreAsciiCase search haystack) := by
  have hmem : ∀ index, index ∈ (matcher haystack).map Match.pattern ↔
      ∃ needle, needles[index]? = some needle ∧
        findIgnoreAsciiCase search haystack needle = true := by
    intro index
    rw [mem_map]
    constructor
    · rintro ⟨found, hfound, rfl⟩
      obtain ⟨needle, hneedle, -, hstands⟩ := (hexact haystack found).mp hfound
      have hne := hneedles needle (mem_of_getElem? hneedle)
      exact ⟨needle, hneedle, (findIgnoreAsciiCase_iff hne).mpr ⟨_, hstands⟩⟩
    · rintro ⟨needle, hneedle, hfind⟩
      have hne := hneedles needle (mem_of_getElem? hneedle)
      obtain ⟨start, hstands⟩ := (findIgnoreAsciiCase_iff hne).mp hfind
      exact ⟨⟨index, start, start + needle.length⟩,
        (hexact haystack _).mpr ⟨needle, hneedle, rfl, hstands⟩, rfl⟩
  rw [firstMatch_eq, Option.toList_none, nil_append]
  cases hfirst : needles.findIdx? (findIgnoreAsciiCase search haystack) with
  | none =>
    rw [min?_eq_none_iff, eq_nil_iff_forall_not_mem]
    intro index hindex
    obtain ⟨needle, hneedle, hfind⟩ := (hmem index).mp hindex
    have hmiss := findIdx?_eq_none_iff.mp hfirst needle (mem_of_getElem? hneedle)
    exact Bool.false_ne_true (hmiss.symm.trans hfind)
  | some index =>
    obtain ⟨hlt, hfind, hbefore⟩ := findIdx?_eq_some_iff_getElem.mp hfirst
    rw [min?_eq_some_iff]
    refine ⟨(hmem index).mpr ⟨_, getElem?_eq_getElem hlt, hfind⟩, ?_⟩
    intro other hother
    obtain ⟨needle, hneedle, hfind'⟩ := (hmem other).mp hother
    obtain ⟨_, rfl⟩ := List.getElem?_eq_some_iff.mp hneedle
    exact not_lt.mp fun hlt => hbefore other hlt hfind'

/-- The one-pass search answers, charges and aborts as the search needle by needle does, and
none of its arithmetic overflows. -/
theorem prepared_replays_scalar (hneedles : ∀ needle ∈ needles, needle ≠ [])
    (hexact : Exact needles matcher) (haystack : Bytes) (work limit : Nat) :
    containsAnyChargedIgnoreCase search haystack needles (some matcher) work limit =
      some (containsAnyChargedIgnoreCaseScalar search haystack needles work limit) := by
  unfold containsAnyChargedIgnoreCase
  cases hfull : checkedMul 64 haystack.length needles.length with
  | none => rfl
  | some fullCharge =>
    obtain ⟨rfl, -⟩ := checkedMul_some hfull
    simp only [firstMatch_matcher search hneedles hexact]
    rcases checkedAdd_cases 64 work (haystack.length * needles.length) with
      ⟨hsum, hword⟩ | ⟨hsum, -⟩
    · rw [hsum]
      by_cases hover : limit < work + haystack.length * needles.length
      · simp [hover]
      · have hprobes : haystack.length *
            ((needles.findIdx? (findIgnoreAsciiCase search haystack)).map (· + 1)).getD
              needles.length ≤ haystack.length * needles.length := by
          refine Nat.mul_le_mul_left _ ?_
          cases hfirst : needles.findIdx? (findIgnoreAsciiCase search haystack) with
          | none => exact Nat.le_refl _
          | some index => exact (findIdx?_eq_some_iff_findIdx_eq.mp hfirst).1
        rw [scalar_eq (by omega) hword, checkedMul_of_lt (by omega)]
        simp only [Option.all_some, hover, decide_false, Bool.false_eq_true, if_false,
          some_bind]
        rw [checkedAdd_of_lt (by omega)]
        rfl
    · rw [hsum]
      rfl

/-- Byte searches from the front. -/
def ByteSearch.scan : ByteSearch where
  memchr byte haystack := haystack.findIdx? (· = byte)
  memchr2 a b haystack := haystack.findIdx? fun x => x = a ∨ x = b
  memchr_eq _ _ := rfl
  memchr2_eq _ _ _ := rfl

/-- A matcher that tries every needle at every position. -/
def tryEverywhere (needles : List Bytes) : Matcher := fun haystack =>
  needles.zipIdx.flatMap fun (needle, pattern) =>
    (List.range (haystack.length + 1 - needle.length)).filterMap fun start =>
      if eqIgnoreAsciiCase (slice haystack start (start + needle.length)) needle then
        some ⟨pattern, start, start + needle.length⟩
      else none

theorem exact_tryEverywhere (needles : List Bytes) :
    Exact needles (tryEverywhere needles) := by
  rintro haystack ⟨pattern, start, stop⟩
  simp only [tryEverywhere, mem_flatMap, Prod.exists, mem_zipIdx_iff_getElem?, mem_filterMap,
    mem_range, Option.ite_none_right_eq_some, Option.some.injEq, Match.mk.injEq, StandsAt]
  constructor
  · rintro ⟨needle, index, hneedle, begin, hlt, hequal, rfl, rfl, rfl⟩
    exact ⟨needle, hneedle, rfl, by omega, hequal⟩
  · rintro ⟨needle, hneedle, rfl, hend, hequal⟩
    exact ⟨needle, pattern, hneedle, start, by omega, hequal, rfl, rfl, rfl⟩

theorem prepared_replays_scalar_ab :
    containsAnyChargedIgnoreCase .scan [97, 66, 97] [[98, 65], [65, 98]]
        (some (tryEverywhere [[98, 65], [65, 98]])) 1 7 =
      some (containsAnyChargedIgnoreCaseScalar .scan [97, 66, 97] [[98, 65], [65, 98]] 1 7) :=
  prepared_replays_scalar (by decide) (exact_tryEverywhere _) _ _ _

end Eidnara.SecretScanner
