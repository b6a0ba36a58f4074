import Eidnara.Retrieval.Packing.Grouping
import Eidnara.Tokenizer.SuffixAnchor

/-!
# The render ledger

`packing/render.rs` and `packing/accounting.rs`: a render grows fragment by fragment, each
charged by what it adds to the count of the text from an anchor on.  Counts are `u64`s, added
with saturation where the source does.  `text[anchor..]` cannot be out of place: the ledger
carries that its anchor is a character boundary.
-/

namespace Eidnara.Daemon.Packing

open Lib Utf8 Tokenizer List
open Retrieval.Packing (Group MergedRange)

/-! ## Charges -/

inductive Authority where
  | exact
  | heuristic (degradation : String) (headroomPermille : Nat)
deriving DecidableEq, Repr

structure Charge where
  tokens : Nat
  authority : Authority
deriving DecidableEq, Repr

namespace Charge

/-- What was added since `before`, and nothing if the count went down. -/
def less (charge : Charge) (before : Nat) : Charge :=
  { charge with tokens := charge.tokens - before }

def withHeadroom (charge : Charge) : Nat :=
  let permille :=
    match charge.authority with
    | .exact => 0
    | .heuristic _ headroomPermille => headroomPermille
  min (charge.tokens + min ((charge.tokens * permille + 999) / 1000) u64Max) u64Max

end Charge

structure AccountingProfile where
  identity : String
  authority : Authority
  count : List Char → Nat

def AccountingProfile.chargeUncached (profile : AccountingProfile) (text : List Char) : Charge :=
  ⟨profile.count text, profile.authority⟩

def saturatingAdd (a b : Nat) : Nat := (checkedAdd 64 a b).getD u64Max

/-! ## Fragments -/

section

variable {Id Key : Type}

inductive Charged (Id : Type) where
  | blockOpen
  | required (occurrence : Id)
  | groupOpen (index : Nat)
  | range (index position : Nat)
  | groupClose (index : Nat)
  | blockClose
deriving DecidableEq, Repr

/-- The texts of identifiers and of bytes, as `Display` and `from_utf8_lossy` give them. -/
structure Texts (Id : Type) where
  display : Id → List Char
  lossy : Bytes → List Char

def escapeXmlContent (s : List Char) : List Char :=
  s.flatMap fun c =>
    if c = '&' then "&amp;".toList
    else if c = '<' then "&lt;".toList
    else if c = '>' then "&gt;".toList
    else [c]

def blockOpenFragment : List Char := "<packed-context>\n".toList

def blockCloseFragment : List Char := "</packed-context>\n".toList

def requiredFragment (texts : Texts Id) (occurrence : Id) (bytes : Bytes) : List Char :=
  "<required id=\"".toList ++ texts.display occurrence ++ "\">\n".toList ++
    escapeXmlContent (texts.lossy bytes) ++ "\n</required>\n".toList

def groupOpenFragment (group : Group Id Key) : List Char :=
  "<group first=\"".toList ++ (toString group.firstFused).toList ++ "\">\n".toList

def rangeFragment (texts : Texts Id) (range : MergedRange Id) : List Char :=
  "<span start=\"".toList ++ (toString range.span.start).toList ++ "\" end=\"".toList ++
    (toString range.span.stop).toList ++ "\">".toList ++
    escapeXmlContent (texts.lossy range.bytes) ++ "</span>\n".toList

def groupCloseFragment : List Char := "</group>\n".toList

def groupFragments (texts : Texts Id) (index : Nat) (group : Group Id Key) :
    List (Charged Id × List Char) :=
  (.groupOpen index, groupOpenFragment group) ::
    (group.ranges.zipIdx.map fun range =>
      (.range index range.2, rangeFragment texts range.1)) ++
    [(.groupClose index, groupCloseFragment)]

/-! ## The ledger -/

structure LedgerEntry (Id : Type) where
  item : Charged Id
  bytes : Nat
  charge : Charge
deriving DecidableEq, Repr

structure PricedFragment (Id : Type) where
  item : Charged Id
  fragment : List Char
  charge : Charge
deriving DecidableEq, Repr

def PricedFragment.entry (priced : PricedFragment Id) : LedgerEntry Id :=
  ⟨priced.item, (utf8 priced.fragment).length, priced.charge⟩

structure Staged (Id : Type) where
  entries : List (PricedFragment Id)
  cost : Option Nat
  tailTokens : Nat

/-- The text is one fragment after the other, as long as the entries say. -/
def Tiles (entries : List (LedgerEntry Id)) (text : List Char) : Prop :=
  ∃ fragments : List (List Char), fragments.flatten = text ∧
    fragments.map (fun fragment => (utf8 fragment).length) = entries.map LedgerEntry.bytes

theorem Tiles.concat {entries : List (LedgerEntry Id)} {text : List Char} (h : Tiles entries text)
    (priced : PricedFragment Id) : Tiles (entries ++ [priced.entry]) (text ++ priced.fragment) := by
  obtain ⟨fragments, rfl, hbytes⟩ := h
  refine ⟨fragments ++ [priced.fragment], by simp, ?_⟩
  rw [map_append, map_append, hbytes]
  rfl

structure Ledger (Id : Type) where
  profile : AccountingProfile
  text : List Char
  entries : List (LedgerEntry Id)
  total : Nat
  totalWithHeadroom : Nat
  anchor : Nat
  tailTokens : Nat
  anchored : isCharBoundary text anchor = true
  tiled : Tiles entries text

def anchorLookbackBytes : Nat := 256

def deltaLookbackBytes : Nat := 2 * maxPieceBytes

def anchorAdvanceBytes : Nat := 4 * anchorLookbackBytes

/-- A suffix anchor, which is always a character boundary of its text. -/
def anchorIn (classes : Classes) (text : List Char) (lookback : Nat) :
    { anchor : Nat // isCharBoundary text anchor = true } :=
  ⟨(suffixAnchor classes text lookback).get (suffixAnchor_isSome classes text lookback),
    isCharBoundary_suffixAnchor (Option.some_get _).symm⟩

def sliceAt (text : List Char) (anchor : Nat) (h : isCharBoundary text anchor = true) : List Char :=
  (sliceFrom text anchor).get h

/-- Prices fragments in order, each after those before it, and says what the last came to. -/
def priceAll (profile : AccountingProfile) :
    List Char → Nat → List (Charged Id × List Char) → List (PricedFragment Id) × Nat
  | _, before, [] => ([], before)
  | scratch, before, (item, fragment) :: rest =>
    let after := profile.chargeUncached (scratch ++ fragment)
    let priced := priceAll profile (scratch ++ fragment) after.tokens rest
    (⟨item, fragment, after.less before⟩ :: priced.1, priced.2)

def costOf (entries : List (PricedFragment Id)) : Option Nat :=
  entries.foldl (fun cost priced => cost.bind (checkedAdd 64 · priced.charge.withHeadroom)) (some 0)

namespace Ledger

def tail (ledger : Ledger Id) : List Char := sliceAt ledger.text ledger.anchor ledger.anchored

def renderedBytes (ledger : Ledger Id) : Nat := (utf8 ledger.text).length

def delta (ledger : Ledger Id) (fragment : List Char) : Charge :=
  (ledger.profile.chargeUncached (ledger.tail ++ fragment)).less ledger.tailTokens

def stage (ledger : Ledger Id) (fragments : List (Charged Id × List Char)) : Staged Id :=
  let priced := priceAll ledger.profile ledger.tail ledger.tailTokens fragments
  ⟨priced.1, costOf priced.1, priced.2⟩

def push (ledger : Ledger Id) (priced : PricedFragment Id) : Ledger Id :=
  { ledger with
    text := ledger.text ++ priced.fragment
    entries := ledger.entries ++ [priced.entry]
    total := saturatingAdd ledger.total priced.charge.tokens
    totalWithHeadroom := saturatingAdd ledger.totalWithHeadroom priced.charge.withHeadroom
    anchored := isCharBoundary_append ledger.anchored priced.fragment
    tiled := ledger.tiled.concat priced }

/-- Only the exact count is local past a piece boundary. -/
def advanceAnchor (classes : Classes) (ledger : Ledger Id) : Ledger Id :=
  match ledger.profile.authority with
  | .heuristic _ _ => ledger
  | .exact =>
    if ledger.renderedBytes - ledger.anchor ≤ anchorAdvanceBytes then ledger
    else
      match ([anchorLookbackBytes, deltaLookbackBytes].map (anchorIn classes ledger.text)).find?
          fun anchor => ledger.anchor < anchor.1 with
      | none => ledger
      | some anchor =>
        { ledger with
          anchor := anchor.1
          tailTokens :=
            (ledger.profile.chargeUncached (sliceAt ledger.text anchor.1 anchor.2)).tokens
          anchored := anchor.2 }

def commit (classes : Classes) (ledger : Ledger Id) (staged : Staged Id) : Ledger Id :=
  ({ staged.entries.foldl push ledger with tailTokens := staged.tailTokens }).advanceAnchor classes

def append (classes : Classes) (ledger : Ledger Id) (item : Charged Id) (fragment : List Char) :
    Ledger Id × Charge :=
  (ledger.commit classes (ledger.stage [(item, fragment)]), ledger.delta fragment)

def close (classes : Classes) (ledger : Ledger Id) : Ledger Id × Charge :=
  ledger.append classes .blockClose blockCloseFragment

def new (profile : AccountingProfile) : Ledger Id where
  profile := profile
  text := []
  entries := []
  total := 0
  totalWithHeadroom := 0
  anchor := 0
  tailTokens := 0
  anchored := isCharBoundary_zero []
  tiled := ⟨[], rfl, rfl⟩

def opened (classes : Classes) (profile : AccountingProfile) : Ledger Id :=
  ((new profile).append classes .blockOpen blockOpenFragment).1

/-! ## What a commit changes -/

theorem advanceAnchor_cases (classes : Classes) (ledger : Ledger Id) :
    ledger.advanceAnchor classes = ledger ∨
      ∃ lookback anchored, ledger.anchor < (anchorIn classes ledger.text lookback).1 ∧
        ledger.profile.authority = .exact ∧
        ledger.advanceAnchor classes =
          { ledger with
            anchor := (anchorIn classes ledger.text lookback).1
            tailTokens := ledger.profile.count
              (sliceAt ledger.text (anchorIn classes ledger.text lookback).1 anchored)
            anchored := anchored } := by
  unfold advanceAnchor
  split
  · exact .inl rfl
  · rename_i hauthority
    split_ifs with hshort
    · exact .inl rfl
    · split
      · exact .inl rfl
      · rename_i anchor hfind
        obtain ⟨lookback, -, rfl⟩ := mem_map.mp (mem_of_find?_eq_some hfind)
        have hlt : ledger.anchor < (anchorIn classes ledger.text lookback).1 := by
          simpa using find?_some hfind
        exact .inr ⟨lookback, (anchorIn classes ledger.text lookback).2, hlt, hauthority, rfl⟩

section

variable (classes : Classes) (ledger : Ledger Id)

@[simp] theorem advanceAnchor_text : (ledger.advanceAnchor classes).text = ledger.text := by
  rcases advanceAnchor_cases classes ledger with h | ⟨_, _, -, -, h⟩ <;> rw [h]

@[simp] theorem advanceAnchor_entries :
    (ledger.advanceAnchor classes).entries = ledger.entries := by
  rcases advanceAnchor_cases classes ledger with h | ⟨_, _, -, -, h⟩ <;> rw [h]

@[simp] theorem advanceAnchor_totalWithHeadroom :
    (ledger.advanceAnchor classes).totalWithHeadroom = ledger.totalWithHeadroom := by
  rcases advanceAnchor_cases classes ledger with h | ⟨_, _, -, -, h⟩ <;> rw [h]

end

theorem foldl_push_text (entries : List (PricedFragment Id)) (ledger : Ledger Id) :
    (entries.foldl push ledger).text =
      ledger.text ++ (entries.map PricedFragment.fragment).flatten := by
  induction entries generalizing ledger with
  | nil => simp
  | cons entry entries ih =>
    rw [foldl_cons, ih, map_cons, flatten_cons, ← append_assoc]
    rfl

theorem commit_text (classes : Classes) (ledger : Ledger Id) (staged : Staged Id) :
    (ledger.commit classes staged).text =
      ledger.text ++ (staged.entries.map PricedFragment.fragment).flatten := by
  rw [commit, advanceAnchor_text]
  exact foldl_push_text staged.entries ledger

theorem fragments_priceAll (profile : AccountingProfile)
    (fragments : List (Charged Id × List Char)) (scratch : List Char) (before : Nat) :
    (priceAll profile scratch before fragments).1.map PricedFragment.fragment =
      fragments.map Prod.snd := by
  induction fragments generalizing scratch before with
  | nil => rfl
  | cons fragment fragments ih =>
    rw [priceAll, map_cons, map_cons, ih]

theorem commit_stage_text (classes : Classes) (ledger : Ledger Id)
    (fragments : List (Charged Id × List Char)) :
    (ledger.commit classes (ledger.stage fragments)).text =
      ledger.text ++ (fragments.map Prod.snd).flatten := by
  rw [commit_text]
  exact congrArg (fun rendered => ledger.text ++ rendered.flatten)
    (fragments_priceAll ledger.profile fragments ledger.tail ledger.tailTokens)

theorem close_text (classes : Classes) (ledger : Ledger Id) :
    (ledger.close classes).1.text = ledger.text ++ blockCloseFragment := by
  rw [close, append, commit_stage_text]
  simp

/-! ## Sums -/

theorem saturatingAdd_eq (a b : Nat) : saturatingAdd a b = min (a + b) u64Max := by
  unfold saturatingAdd checkedAdd u64Max
  split_ifs with h <;> simp only [Option.getD_some, Option.getD_none] <;> omega

def headroomSum (entries : List (LedgerEntry Id)) : Nat :=
  (entries.map fun entry => entry.charge.withHeadroom).sum

theorem headroomSum_append (a b : List (LedgerEntry Id)) :
    headroomSum (a ++ b) = headroomSum a + headroomSum b := by
  rw [headroomSum, map_append, sum_append]
  rfl

theorem foldl_push_entries (entries : List (PricedFragment Id)) (ledger : Ledger Id) :
    (entries.foldl push ledger).entries = ledger.entries ++ entries.map PricedFragment.entry := by
  induction entries generalizing ledger with
  | nil => simp
  | cons entry entries ih =>
    rw [foldl_cons, ih, map_cons, ← singleton_append, ← append_assoc]
    rfl

theorem commit_entries (classes : Classes) (ledger : Ledger Id) (staged : Staged Id) :
    (ledger.commit classes staged).entries =
      ledger.entries ++ staged.entries.map PricedFragment.entry := by
  rw [commit, advanceAnchor_entries]
  exact foldl_push_entries staged.entries ledger

/-- The total with headroom is the sum over the entries, saturated. -/
def Summed (ledger : Ledger Id) : Prop :=
  ledger.totalWithHeadroom = min (headroomSum ledger.entries) u64Max

variable {ledger : Ledger Id}

theorem Summed.push (h : ledger.Summed) (priced : PricedFragment Id) :
    (ledger.push priced).Summed := by
  have hlast : headroomSum [priced.entry] = priced.charge.withHeadroom := rfl
  have htotal : (ledger.push priced).totalWithHeadroom =
      min (ledger.totalWithHeadroom + priced.charge.withHeadroom) u64Max := saturatingAdd_eq _ _
  have hentries : headroomSum (ledger.push priced).entries =
      headroomSum ledger.entries + priced.charge.withHeadroom := by
    rw [Ledger.push, headroomSum_append, hlast]
  unfold Summed at *
  omega

theorem Summed.commit (h : ledger.Summed) (classes : Classes) (staged : Staged Id) :
    (ledger.commit classes staged).Summed := by
  have hpushed : ∀ (entries : List (PricedFragment Id)) (ledger : Ledger Id), ledger.Summed →
      (entries.foldl Ledger.push ledger).Summed := by
    intro entries
    induction entries with
    | nil => exact fun ledger h => h
    | cons entry entries ih => exact fun ledger h => ih _ (h.push entry)
  unfold Summed Ledger.commit
  rw [advanceAnchor_totalWithHeadroom, advanceAnchor_entries]
  exact hpushed staged.entries ledger h

theorem summed_opened (classes : Classes) (profile : AccountingProfile) :
    (opened classes profile : Ledger Id).Summed :=
  @Summed.commit Id (new profile) rfl classes _

theorem append_entries (classes : Classes) (ledger : Ledger Id) (item : Charged Id)
    (fragment : List Char) : (ledger.append classes item fragment).1.entries =
      ledger.entries ++ [⟨item, (utf8 fragment).length, ledger.delta fragment⟩] := by
  rw [append, commit_entries]
  rfl

theorem withHeadroom_le (charge : Charge) : charge.withHeadroom ≤ u64Max := Nat.min_le_right _ _

theorem Summed.total_eq (h : ledger.Summed) (hfits : headroomSum ledger.entries ≤ u64Max) :
    ledger.totalWithHeadroom = headroomSum ledger.entries :=
  h.trans (Nat.min_eq_left hfits)

theorem headroomSum_opened_le (classes : Classes) (profile : AccountingProfile) :
    headroomSum (opened classes profile : Ledger Id).entries ≤ u64Max := by
  rw [opened, append_entries]
  exact withHeadroom_le _

theorem cost_eq {entries : List (PricedFragment Id)} {cost : Nat} (h : costOf entries = some cost) :
    headroomSum (entries.map PricedFragment.entry) = cost := by
  have hfold : ∀ (entries : List (PricedFragment Id)) (start : Option Nat),
      entries.foldl (fun cost priced => cost.bind (checkedAdd 64 · priced.charge.withHeadroom))
        start = some cost →
      ∃ sum, start = some sum ∧ sum + headroomSum (entries.map PricedFragment.entry) = cost := by
    intro entries
    induction entries with
    | nil => exact fun start h => ⟨cost, h, rfl⟩
    | cons priced entries ih =>
      intro start h
      obtain ⟨sum, hsum, hrest⟩ := ih _ h
      obtain ⟨before, rfl, hadd⟩ := Option.bind_eq_some_iff.mp hsum
      obtain ⟨rfl, -⟩ := checkedAdd_some hadd
      refine ⟨before, rfl, ?_⟩
      have hcons : headroomSum ((priced :: entries).map PricedFragment.entry) =
          priced.charge.withHeadroom + headroomSum (entries.map PricedFragment.entry) := rfl
      rw [hcons, ← hrest, Nat.add_assoc]
  obtain ⟨sum, hsum, hcost⟩ := hfold entries (some 0) h
  obtain rfl := Option.some.inj hsum
  rwa [Nat.zero_add] at hcost

theorem headroomSum_stage {fragments : List (Charged Id × List Char)} {cost : Nat}
    (h : (ledger.stage fragments).cost = some cost) :
    headroomSum ((ledger.stage fragments).entries.map PricedFragment.entry) = cost :=
  cost_eq h

end Ledger

end

end Eidnara.Daemon.Packing
