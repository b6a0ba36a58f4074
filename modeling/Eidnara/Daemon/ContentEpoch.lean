import Eidnara.Lib.Framing
import Eidnara.Lib.Utf8

/-!
# Folding the m0 content epoch into the render identity

Every part of the epoch is written with its label and its length in bytes, so the parts read
back from the left in one way.  The base render configuration stands before them without a
length, and a base that itself holds the marker can imitate the parts of another epoch.
-/

namespace Eidnara.Daemon.ContentEpoch

open Lib Framing Utf8 List

structure M0ContentEpoch where
  upgradeState : String := ""
  memoryContentEpoch : String := ""
  memoryRenderEpoch : String := ""
  historySegmentRenderEpoch : String := ""
  profileRenderEpoch : String := ""
  promptSurfaceEpoch : String := ""
  taggerFeatureEpoch : String := ""
  transitionEpoch : String := ""
  deriving DecidableEq, Repr

def part (label value : String) : String :=
  label ++ ":" ++ toString (utf8 value.toList).length ++ ":" ++ value

/-- The fields that are left out while they are empty. -/
def M0ContentEpoch.optionals (epoch : M0ContentEpoch) : List (String × String) :=
  [("mre", epoch.memoryRenderEpoch), ("cre", epoch.historySegmentRenderEpoch),
    ("mpe", epoch.profileRenderEpoch), ("pse", epoch.promptSurfaceEpoch),
    ("tfe", epoch.taggerFeatureEpoch), ("xte", epoch.transitionEpoch)]

def M0ContentEpoch.fields (epoch : M0ContentEpoch) : List (String × String) :=
  [("ws", ""), ("upg", epoch.upgradeState), ("mem", epoch.memoryContentEpoch)] ++
    epoch.optionals.filter (·.2 ≠ "")

def M0ContentEpoch.parts (epoch : M0ContentEpoch) : List String :=
  epoch.fields.map fun field => part field.1 field.2

def marker : String := "|m0epoch["

def foldM0ContentEpoch (baseRenderConfig : String) (epoch : M0ContentEpoch) : String :=
  baseRenderConfig ++ marker ++ ";".intercalate epoch.parts ++ "]"

/-! ## Reading the parts back -/

theorem toList_part (label value : String) :
    (part label value).toList =
      label.toList ++ ':' ::
        ((toString (utf8 value.toList).length).toList ++ ':' :: value.toList) := by
  simp [part]

theorem part_append_inj {field field' : String × String} {rest rest' : List Char}
    (hfield : ':' ∉ field.1.toList) (hfield' : ':' ∉ field'.1.toList)
    (h : (part field.1 field.2).toList ++ rest = (part field'.1 field'.2).toList ++ rest') :
    field = field' ∧ rest = rest' := by
  simp only [toList_part, append_assoc, cons_append] at h
  obtain ⟨hlabel, h⟩ := append_separator_inj hfield hfield' h
  have hcolon := notMem_toString (c := ':') (by decide)
  obtain ⟨hlength, h⟩ := append_separator_inj (hcolon _) (hcolon _) h
  -- The lengths count bytes, so the values are compared as bytes.
  have hbytes := congrArg utf8 h
  rw [utf8_append, utf8_append] at hbytes
  have hvalue := utf8_inj.mp (append_inj hbytes (toString_inj hlength)).1
  rw [hvalue] at h
  exact ⟨Prod.ext (String.toList_inj.mp hlabel) (String.toList_inj.mp hvalue),
    append_cancel_left h⟩

def fieldsText (fields : List (String × String)) : List Char :=
  (fields.flatMap fun field => ';' :: (part field.1 field.2).toList) ++ [']']

variable {fields fields' : List (String × String)}

theorem fieldsText_inj (hfields : ∀ field ∈ fields, ':' ∉ field.1.toList)
    (hfields' : ∀ field ∈ fields', ':' ∉ field.1.toList)
    (h : fieldsText fields = fieldsText fields') : fields = fields' := by
  induction fields generalizing fields' with
  | nil =>
    cases fields' with
    | nil => rfl
    | cons field' others' => exact absurd (List.cons.inj h).1 (by decide)
  | cons field others ih =>
    cases fields' with
    | nil => exact absurd (List.cons.inj h).1 (by decide)
    | cons field' others' =>
      rw [forall_mem_cons] at hfields hfields'
      simp only [fieldsText, flatMap_cons, append_assoc, cons_append] at h
      obtain ⟨rfl, hrest⟩ := part_append_inj hfields.1 hfields'.1 (List.cons.inj h).2
      rw [ih hfields.2 hfields'.2 hrest]

/-- Leaving out the empty fields of a fixed list of labels loses nothing. -/
theorem eq_of_filter_eq (h : fields.filter (·.2 ≠ "") = fields'.filter (·.2 ≠ ""))
    (hlabels : fields.map Prod.fst = fields'.map Prod.fst) (hnodup : (fields.map Prod.fst).Nodup) :
    fields = fields' := by
  induction fields generalizing fields' with
  | nil => exact (map_eq_nil_iff.mp hlabels.symm).symm
  | cons field others ih =>
    cases fields' with
    | nil => cases hlabels
    | cons field' others' =>
      obtain ⟨hlabel, hlater⟩ := List.cons.inj hlabels
      obtain ⟨hnot, hnodup⟩ := nodup_cons.mp hnodup
      have habsent (f : String × String) (rest : List (String × String))
          (hf : f.1 ∉ rest.map Prod.fst) : f ∉ rest.filter (·.2 ≠ "") :=
        fun hmem => hf (mem_map_of_mem (mem_filter.mp hmem).1)
      simp only [filter_cons] at h
      -- A field that one list alone keeps would have to be one of the later fields of the other.
      split_ifs at h with hvalue hvalue' hvalue'
      · obtain ⟨rfl, hrest⟩ := List.cons.inj h
        rw [ih hrest hlater hnodup]
      · exact absurd (h ▸ mem_cons_self) (habsent field others' (hlater ▸ hnot))
      · exact absurd (h ▸ mem_cons_self) (habsent field' others (hlabel ▸ hnot))
      · have hpair : field = field' := Prod.ext hlabel (by simp_all)
        rw [hpair, ih h hlater hnodup]

theorem toList_intercalate_cons (text : String) (texts : List String) :
    (";".intercalate (text :: texts)).toList =
      text.toList ++ texts.flatMap fun text => ';' :: text.toList := by
  induction texts generalizing text with
  | nil => simp
  | cons next texts ih =>
    rw [String.intercalate_cons_cons, String.toList_append, String.toList_append, ih]
    simp

theorem toList_fold (base : String) (epoch : M0ContentEpoch) :
    (foldM0ContentEpoch base epoch).toList =
      base.toList ++ (marker.toList ++ (fieldsText epoch.fields).tail) := by
  rw [foldM0ContentEpoch, M0ContentEpoch.parts, M0ContentEpoch.fields, cons_append,
    map_cons, String.toList_append, String.toList_append, String.toList_append,
    toList_intercalate_cons, flatMap_map]
  simp [fieldsText]

theorem noColon_fields (epoch : M0ContentEpoch) : ∀ field ∈ epoch.fields, ':' ∉ field.1.toList := by
  have hoptionals : ∀ field ∈ epoch.optionals, ':' ∉ field.1.toList := by
    simp [M0ContentEpoch.optionals]
  intro field hfield
  rcases mem_append.mp hfield with hrequired | hoptional
  · clear hfield
    revert field
    simp
  · exact hoptionals field (mem_filter.mp hoptional).1

variable {base base' : String} {epoch epoch' : M0ContentEpoch}

theorem epoch_eq_of_fold
    (h : foldM0ContentEpoch base epoch = foldM0ContentEpoch base epoch') : epoch = epoch' := by
  have hlist := congrArg String.toList h
  simp only [toList_fold, append_cancel_left_eq] at hlist
  have hfields := fieldsText_inj (noColon_fields epoch) (noColon_fields epoch')
    (congrArg (';' :: ·) hlist)
  simp only [M0ContentEpoch.fields, cons_append, List.cons.injEq, Prod.mk.injEq, true_and,
    nil_append] at hfields
  obtain ⟨hupgrade, hmemory, hkept⟩ := hfields
  have hlabels : epoch.optionals.map Prod.fst = ["mre", "cre", "mpe", "pse", "tfe", "xte"] := rfl
  have hoptionals := eq_of_filter_eq hkept rfl (by rw [hlabels]; decide)
  simp only [M0ContentEpoch.optionals, List.cons.injEq, Prod.mk.injEq, true_and, and_true]
    at hoptionals
  obtain ⟨⟩ := epoch
  simp_all

/-! ## Finding the end of the base -/

theorem eq_nil_of_marker {left : List Char}
    (h : marker.toList ++ rest = left ++ (marker.toList ++ rest'))
    (hfree : ¬marker.toList <+: left) : left = [] := by
  rcases append_eq_append_iff.mp h with ⟨more, rfl, -⟩ | ⟨more, hmarker, htail⟩
  · exact absurd (prefix_append _ _) hfree
  cases left with
  | nil => rfl
  | cons c left =>
    -- The marker would start again inside itself, but its first character occurs only there.
    cases more with
    | nil =>
      rw [append_nil] at hmarker
      exact absurd (hmarker ▸ prefix_rfl) hfree
    | cons d more =>
      obtain rfl : '|' = d := (List.cons.inj htail).1
      have hbar : '|' ∈ marker.toList.tail := by
        rw [hmarker]
        exact mem_append_right _ mem_cons_self
      exact absurd hbar (by decide)

/-- The longer base holds the marker and the front of the other epoch's text, up to another
marker. -/
def Imitates (base : String) (epoch : M0ContentEpoch) (base' : String) (epoch' : M0ContentEpoch) :
    Prop :=
  ∃ text, base'.toList = base.toList ++ (marker.toList ++ text) ∧
    (fieldsText epoch.fields).tail =
      text ++ (marker.toList ++ (fieldsText epoch'.fields).tail)

theorem Imitates.fold_eq (h : Imitates base epoch base' epoch') :
    foldM0ContentEpoch base epoch = foldM0ContentEpoch base' epoch' := by
  obtain ⟨text, hbase, htext⟩ := h
  refine String.toList_inj.mp ?_
  rw [toList_fold, toList_fold, hbase, htext]
  simp only [append_assoc]

theorem eq_or_imitates {more : List Char} (hmore : base'.toList = base.toList ++ more)
    (h : foldM0ContentEpoch base epoch = foldM0ContentEpoch base' epoch') :
    (base = base' ∧ epoch = epoch') ∨ Imitates base epoch base' epoch' := by
  have hlist := congrArg String.toList h
  rw [toList_fold, toList_fold, hmore, append_assoc, append_cancel_left_eq] at hlist
  by_cases hmarker : marker.toList <+: more
  · obtain ⟨text, rfl⟩ := hmarker
    rw [append_assoc, append_cancel_left_eq] at hlist
    exact .inr ⟨text, hmore, hlist⟩
  · rw [eq_nil_of_marker hlist hmarker, append_nil] at hmore
    obtain rfl := String.toList_inj.mp hmore
    exact .inl ⟨rfl, epoch_eq_of_fold h⟩

/-- Equal folds come from equal bases and equal epochs, or one base imitates the other's epoch, for
which it must go on with the marker where the other base ends. -/
theorem fold_injective_of_no_marker (base base' : String) (epoch epoch' : M0ContentEpoch) :
    (foldM0ContentEpoch base epoch = foldM0ContentEpoch base' epoch' ↔
      (base = base' ∧ epoch = epoch') ∨ Imitates base epoch base' epoch' ∨
        Imitates base' epoch' base epoch) ∧
    (¬base.toList ++ marker.toList <+: base'.toList →
      ¬base'.toList ++ marker.toList <+: base.toList →
      foldM0ContentEpoch base epoch = foldM0ContentEpoch base' epoch' →
      base = base' ∧ epoch = epoch') := by
  have hiff : foldM0ContentEpoch base epoch = foldM0ContentEpoch base' epoch' ↔
      (base = base' ∧ epoch = epoch') ∨ Imitates base epoch base' epoch' ∨
        Imitates base' epoch' base epoch := by
    constructor
    · intro h
      have hlist := congrArg String.toList h
      rw [toList_fold, toList_fold] at hlist
      rcases append_eq_append_iff.mp hlist with ⟨more, hmore, -⟩ | ⟨more, hmore, -⟩
      · exact (eq_or_imitates hmore h).imp_right .inl
      · refine (eq_or_imitates hmore h.symm).imp (fun heq => ?_) .inr
        exact ⟨heq.1.symm, heq.2.symm⟩
    · rintro (⟨rfl, rfl⟩ | himitates | himitates)
      · rfl
      · exact himitates.fold_eq
      · exact himitates.fold_eq.symm
  refine ⟨hiff, fun hbase hbase' h => ?_⟩
  rcases hiff.mp h with heq | ⟨text, htext, -⟩ | ⟨text, htext, -⟩
  · exact heq
  · exact absurd ⟨text, by rw [htext, append_assoc]⟩ hbase
  · exact absurd ⟨text, by rw [htext, append_assoc]⟩ hbase'

theorem fold_injective_of_no_marker_plain :
    foldM0ContentEpoch "cfg" { upgradeState := "u1" } = "cfg|m0epoch[ws:0:;upg:2:u1;mem:0:]" ∧
      "cfg" = "cfg" ∧ ({ upgradeState := "u1" } : M0ContentEpoch) = { upgradeState := "u1" } :=
  ⟨by decide +kernel, (fold_injective_of_no_marker "cfg" "cfg" _ _).2 (by decide +kernel)
    (by decide +kernel) rfl⟩

/-- A base that ends in the front of a fold imitates an epoch whose memory field holds a fold. -/
theorem fold_not_injective :
    foldM0ContentEpoch "" { memoryContentEpoch := "|m0epoch[ws:0:;upg:0:;mem:0:" } =
        foldM0ContentEpoch "|m0epoch[ws:0:;upg:0:;mem:28:" {} ∧
      "" ≠ "|m0epoch[ws:0:;upg:0:;mem:28:" := by
  decide +kernel

end Eidnara.Daemon.ContentEpoch
