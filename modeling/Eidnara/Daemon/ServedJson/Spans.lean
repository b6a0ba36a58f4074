import Eidnara.Daemon.CompactJson
import Eidnara.Daemon.ServedJson.Encoder

/-!
# What the encoder writes and records

`spans` are the objects in the compact text of a tree, in
the order in which they open, at their byte offsets.  `serialize_wrote`: the
encoder appends exactly these to its text and to the live part of its pool,
whatever the pool held beyond its length.
-/

namespace Eidnara.Daemon.ServedJson

open Lib Utf8 Eidnara.Json List

section Compact

variable {ν : Type} (spell : ν → Bytes)

def skipComma (first : Bool) (offset : Nat) : Nat := if first then offset else offset + 1

theorem length_comma (first : Bool) (offset : Nat) :
    offset + (if first then [] else [(0x2c : UInt8)]).length = skipComma first offset := by
  cases first <;> simp [skipComma]

def valueStart (key : Text) (offset : Nat) : Nat := offset + (quoted (utf8 key)).length + 1

def fieldStop (key : Text) (value : Json.Tree ν) (offset : Nat) : Nat :=
  valueStart key offset + (compact spell value).length

def fieldSpans : List (Text × Json.Tree ν) → Bool → Nat → List Field
  | [], _, _ => []
  | (key, value) :: entries, first, offset =>
    let start := skipComma first offset
    ⟨start, fieldStop spell key value start, start + (quoted (utf8 key)).length⟩ ::
      fieldSpans entries false (fieldStop spell key value start)

mutual

def spans : Json.Tree ν → Nat → List ObjectSpans
  | .arr items, offset => spansItems items true (offset + 1)
  | .obj entries, offset =>
    ⟨offset, offset + (compact spell (.obj entries)).length,
      fieldSpans spell entries true (offset + 1)⟩ :: spansEntries entries true (offset + 1)
  | _, _ => []

def spansItems : List (Json.Tree ν) → Bool → Nat → List ObjectSpans
  | [], _, _ => []
  | item :: items, first, offset =>
    spans item (skipComma first offset) ++
      spansItems items false (skipComma first offset + (compact spell item).length)

def spansEntries : List (Text × Json.Tree ν) → Bool → Nat → List ObjectSpans
  | [], _, _ => []
  | (key, value) :: entries, first, offset =>
    spans value (valueStart key (skipComma first offset)) ++
      spansEntries entries false (fieldStop spell key value (skipComma first offset))

end

end Compact

/-! ## Encoder steps -/

namespace Encoder

def live (encoder : Encoder) : List ObjectSpans := encoder.objects.live

def Sound (encoder : Encoder) : Prop := encoder.objects.len ≤ encoder.objects.items.length

/-- A step that appends `text` and the objects `added`, and closes what it opens. -/
structure Wrote (before after : Encoder) (text : Bytes) (added : List ObjectSpans) : Prop where
  text_eq : after.text = before.text ++ text
  stack_eq : after.stack = before.stack
  live_eq : after.live = before.live ++ added
  sound : after.Sound

theorem Wrote.trans {a b c : Encoder} {text text' : Bytes} {added added' : List ObjectSpans}
    (h : Wrote a b text added) (h' : Wrote b c text' added') :
    Wrote a c (text ++ text') (added ++ added') where
  text_eq := by rw [h'.text_eq, h.text_eq, append_assoc]
  stack_eq := h'.stack_eq.trans h.stack_eq
  live_eq := by rw [h'.live_eq, h.live_eq, append_assoc]
  sound := h'.sound

variable {encoder : Encoder}

theorem wrote_push (h : encoder.Sound) (bytes : Bytes) :
    Wrote encoder (encoder.push bytes) bytes [] where
  text_eq := rfl
  stack_eq := rfl
  live_eq := (append_nil _).symm
  sound := h

theorem wrote_string (h : encoder.Sound) (value : Bytes) :
    Wrote encoder (encoder.string value) (quoted value) [] :=
  { wrote_push h [] with text_eq := pushEscaped_eq _ _ }

theorem wrote_beginArray (h : encoder.Sound) :
    Wrote encoder encoder.beginArray [0x5b] [] := { wrote_push h _ with }

theorem wrote_endArray (h : encoder.Sound) :
    Wrote encoder encoder.endArray [0x5d] [] := { wrote_push h _ with }

theorem wrote_beginArrayValue (h : encoder.Sound) (first : Bool) :
    Wrote encoder (encoder.beginArrayValue first) (if first then [] else [0x2c]) [] := by
  cases first with
  | true =>
    exact ⟨(append_nil _).symm, rfl, (append_nil _).symm, h⟩
  | false => exact wrote_push h [0x2c]

/-- Opening an object overwrites a stale entry or extends the pool. -/
theorem live_begin (pool : ObjectPool) (start : Nat) (h : pool.len ≤ pool.items.length) :
    (pool.begin start).2.live = pool.live ++ [⟨start, 0, []⟩] ∧
      (pool.begin start).2.len ≤ (pool.begin start).2.items.length := by
  unfold ObjectPool.begin ObjectPool.live
  split_ifs with hstale
  · refine ⟨?_, by rw [length_set]; exact hstale⟩
    rw [take_succ_eq_append_getElem (by simpa using hstale), take_set_of_le (le_refl _)]
    simp
  · have hlen : pool.len = pool.items.length := by omega
    refine ⟨?_, by simp; omega⟩
    rw [hlen, take_of_length_le (by simp), take_length]

theorem updateObject_live (encoder : Encoder) (change : ObjectSpans → Option ObjectSpans)
    {pre after : List ObjectSpans} {object object' : ObjectSpans}
    (hsound : encoder.Sound) (hlive : encoder.live = pre ++ object :: after)
    (hchange : change object = some object') :
    ∃ encoder', encoder.updateObject pre.length change = some encoder' ∧
      encoder'.text = encoder.text ∧ encoder'.stack = encoder.stack ∧
      encoder'.live = pre ++ object' :: after ∧ encoder'.Sound := by
  replace hlive : encoder.objects.items.take encoder.objects.len = pre ++ object :: after := hlive
  have hlt : pre.length < encoder.objects.len := by
    have hlength := congrArg List.length hlive
    simp only [length_take, length_append, length_cons] at hlength
    omega
  have hget : encoder.objects.items[pre.length]? = some object := by
    rw [← getElem?_take_of_lt hlt, hlive]
    simp
  refine ⟨{ encoder with objects :=
      { encoder.objects with items := encoder.objects.items.set pre.length object' } },
    by simp only [updateObject, hget, some_bind, hchange],
    rfl, rfl, ?_, ?_⟩
  · rw [live, ObjectPool.live, take_set, hlive]
    simp
  · simpa [Sound] using hsound

theorem beginObject_open (h : encoder.Sound) :
    encoder.beginObject.text = encoder.text ++ [0x7b] ∧
      encoder.beginObject.stack = encoder.live.length :: encoder.stack ∧
      encoder.beginObject.live = encoder.live ++ [⟨encoder.text.length, 0, []⟩] ∧
      encoder.beginObject.Sound := by
  obtain ⟨hlive, hsound⟩ := live_begin encoder.objects encoder.text.length h
  refine ⟨rfl, ?_, hlive, hsound⟩
  have hlen : encoder.live.length = encoder.objects.len := by
    rw [live, ObjectPool.live, length_take, Nat.min_eq_left h]
  rw [hlen]
  rfl

/-- The open object `object` stands at the index on top of the stack. -/
structure Open (encoder : Encoder) (pre : List ObjectSpans) (object : ObjectSpans)
    (after : List ObjectSpans) (stack : List Nat) : Prop where
  stack_eq : encoder.stack = pre.length :: stack
  live_eq : encoder.live = pre ++ object :: after
  sound : encoder.Sound

variable {encoder : Encoder} {pre after : List ObjectSpans} {object : ObjectSpans}
  {stack : List Nat}

theorem Open.update (h : encoder.Open pre object after stack)
    (change : ObjectSpans → Option ObjectSpans) {object' : ObjectSpans}
    (hchange : change object = some object') :
    ∃ encoder', encoder.updateObject pre.length change = some encoder' ∧
      encoder'.text = encoder.text ∧ encoder'.Open pre object' after stack := by
  obtain ⟨encoder', hupdate, htext, hstack, hlive, hsound⟩ :=
    updateObject_live encoder change h.sound h.live_eq hchange
  exact ⟨encoder', hupdate, htext, hstack.trans h.stack_eq, hlive, hsound⟩

theorem Open.wrote (h : encoder.Open pre object after stack) {encoder' : Encoder} {text : Bytes}
    {added : List ObjectSpans} (hwrote : Wrote encoder encoder' text added) :
    encoder'.Open pre object (after ++ added) stack where
  stack_eq := hwrote.stack_eq.trans h.stack_eq
  live_eq := by rw [hwrote.live_eq, h.live_eq, append_assoc, cons_append]
  sound := hwrote.sound

theorem Open.beginObjectKey (h : encoder.Open pre object after stack) (first : Bool) :
    ∃ encoder', encoder.beginObjectKey first = some encoder' ∧
      encoder'.text = encoder.text ++ (if first then [] else [0x2c]) ∧
      encoder'.Open pre { object with
        fields := object.fields ++ [⟨skipComma first encoder.text.length, 0, 0⟩] } after stack := by
  obtain ⟨e, he, hopen, htext⟩ : ∃ e : Encoder,
      e = (if first then encoder else encoder.push [0x2c]) ∧
      e.Open pre object after stack ∧ e.text = encoder.text ++ (if first then [] else [0x2c]) := by
    cases first with
    | true => exact ⟨_, rfl, h, (append_nil _).symm⟩
    | false => exact ⟨_, rfl, ⟨h.stack_eq, h.live_eq, h.sound⟩, rfl⟩
  obtain ⟨encoder', hupdate, htext', hopen'⟩ := hopen.update (fun object =>
    some { object with fields := object.fields ++ [⟨e.text.length, 0, 0⟩] }) rfl
  rw [← length_comma, ← length_append, ← htext]
  refine ⟨encoder', ?_, htext', hopen'⟩
  simp only [Encoder.beginObjectKey, ← he, hopen.stack_eq, head?_cons, some_bind]
  exact hupdate

/-- The last field of the open object changes: its key or its value has ended. -/
theorem Open.endField {fields : List Field} {field : Field}
    (h : encoder.Open pre { object with fields := fields ++ [field] } after stack)
    (change : Field → Field) :
    ∃ encoder', (encoder.stack.head?.bind fun top =>
        encoder.updateObject top (updateLast change)) = some encoder' ∧
      encoder'.text = encoder.text ∧
      encoder'.Open pre { object with fields := fields ++ [change field] } after stack := by
  rw [h.stack_eq]
  exact h.update _ (by simp [updateLast])

theorem Open.endObject (h : encoder.Open pre object after stack) :
    ∃ encoder', encoder.endObject = some encoder' ∧ encoder'.text = encoder.text ++ [0x7d] ∧
      encoder'.stack = stack ∧
      encoder'.live = pre ++ { object with stop := encoder.text.length + 1 } :: after ∧
      encoder'.Sound := by
  have hclosed : encoder.live = pre ++ object :: after := h.live_eq
  obtain ⟨encoder', hupdate, htext, hstack, hlive, hsound⟩ := updateObject_live
    { encoder.push [0x7d] with depth := encoder.depth - 1, stack := stack }
    (fun object => some { object with stop := encoder.text.length + 1 })
    h.sound hclosed rfl
  refine ⟨encoder', ?_, htext, hstack, hlive, hsound⟩
  have htail : (encoder.push [0x7d]).stack = pre.length :: stack := h.stack_eq
  have hlength : (encoder.push [0x7d]).text.length = encoder.text.length + 1 := by
    simp [Encoder.push]
  simp only [Encoder.endObject, htail, head?_cons, tail_cons, some_bind, hlength]
  exact hupdate

end Encoder

/-! ## Serialization -/

section Serialize

variable {ν : Type} (spell : ν → Bytes)

mutual

theorem serialize_wrote : ∀ (value : Json.Tree ν) (encoder : Encoder), encoder.Sound →
    ∃ encoder', serialize spell value encoder = some encoder' ∧
      encoder.Wrote encoder' (compact spell value) (spans spell value encoder.text.length)
  | .null, encoder, h | .bool true, encoder, h | .bool false, encoder, h | .num n, encoder, h =>
      ⟨_, rfl, Encoder.wrote_push h _⟩
  | .str s, encoder, h => ⟨_, rfl, Encoder.wrote_string h _⟩
  | .arr [], encoder, h => by
    have hbegin := Encoder.wrote_beginArray h
    have hend := Encoder.wrote_endArray hbegin.sound
    exact ⟨_, rfl, hbegin.trans hend⟩
  | .arr (item :: items), encoder, h => by
    have hbegin := Encoder.wrote_beginArray h
    obtain ⟨encoder', hitems, hwrote⟩ :=
      serializeItems_wrote (item :: items) true encoder.beginArray hbegin.sound
    have hend := Encoder.wrote_endArray hwrote.sound
    refine ⟨encoder'.endArray, by simp [serialize, hitems], ?_⟩
    have hall := (hbegin.trans hwrote).trans hend
    have hlength : encoder.beginArray.text.length = encoder.text.length + 1 := by
      simp [hbegin.text_eq]
    rw [hlength] at hall
    simpa [compact, spans] using hall
  | .obj [], encoder, h => by
    obtain ⟨htext, hstack, hlive, hsound⟩ := Encoder.beginObject_open h
    obtain ⟨encoder', hend, htext', hstack', hlive', hsound'⟩ :=
      Encoder.Open.endObject ⟨hstack, hlive, hsound⟩
    refine ⟨encoder', by simp [serialize, hend], ?_, hstack', ?_, hsound'⟩
    · simp [htext', htext, compact, compactEntries]
    · rw [hlive', htext]
      simp [spans, fieldSpans, spansEntries, compact, compactEntries]
  | .obj (entry :: entries), encoder, h => by
    obtain ⟨htext, hstack, hlive, hsound⟩ := Encoder.beginObject_open h
    obtain ⟨middle, hentries, htext', hopen⟩ :=
      serializeEntries_wrote (entry :: entries) true encoder.beginObject _ _ _ _
        ⟨hstack, hlive, hsound⟩
    obtain ⟨encoder', hend, htext'', hstack', hlive', hsound'⟩ := hopen.endObject
    have hlength : encoder.beginObject.text.length = encoder.text.length + 1 := by
      simp [htext]
    refine ⟨encoder', by simp [serialize, hentries, hend], ?_, hstack', ?_, hsound'⟩
    · simp [htext'', htext', htext, compact]
    · have hmiddle : middle.text.length + 1 =
          encoder.text.length + (compact spell (.obj (entry :: entries))).length := by
        simp only [htext', htext, compact, length_append, length_cons,
          length_nil]
        omega
      rw [hlive', hmiddle, hlength]
      simp [spans]

theorem serializeItems_wrote : ∀ (items : List (Json.Tree ν)) (first : Bool) (encoder : Encoder),
    encoder.Sound → ∃ encoder', serializeItems spell items first encoder = some encoder' ∧
      encoder.Wrote encoder' (compactItems spell items first)
        (spansItems spell items first encoder.text.length)
  | [], first, encoder, h =>
    ⟨encoder, rfl, (append_nil _).symm, rfl, (append_nil _).symm, h⟩
  | item :: items, first, encoder, h => by
    have hcomma := Encoder.wrote_beginArrayValue h first
    obtain ⟨middle, hitem, hwrote⟩ := serialize_wrote item (encoder.beginArrayValue first)
      hcomma.sound
    obtain ⟨encoder', hitems, hrest⟩ := serializeItems_wrote items false middle hwrote.sound
    refine ⟨encoder', by simp [serializeItems, hitem, hitems], ?_⟩
    have hall := (hcomma.trans hwrote).trans hrest
    have hstart : (encoder.beginArrayValue first).text.length =
        skipComma first encoder.text.length := by
      rw [hcomma.text_eq, length_append, length_comma]
    have hnext : middle.text.length =
        skipComma first encoder.text.length + (compact spell item).length := by
      rw [hwrote.text_eq, length_append, hstart]
    rw [hstart, hnext] at hall
    simpa [compactItems, spansItems] using hall

theorem serializeEntries_wrote : ∀ (entries : List (Text × Json.Tree ν)) (first : Bool)
    (encoder : Encoder) (pre after : List ObjectSpans) (object : ObjectSpans)
    (stack : List Nat), encoder.Open pre object after stack →
    ∃ encoder', serializeEntries spell entries first encoder = some encoder' ∧
      encoder'.text = encoder.text ++ compactEntries spell entries first ∧
      encoder'.Open pre { object with
          fields := object.fields ++ fieldSpans spell entries first encoder.text.length }
        (after ++ spansEntries spell entries first encoder.text.length) stack
  | [], first, encoder, pre, after, object, stack, h => by
    refine ⟨encoder, rfl, by simp [compactEntries], ?_⟩
    simpa [fieldSpans, spansEntries] using h
  | (key, value) :: entries, first, encoder, pre, after, object, stack, h => by
    obtain ⟨e₁, hbegin, htext₁, hopen₁⟩ := h.beginObjectKey first
    have hkey := Encoder.wrote_string hopen₁.sound (utf8 key)
    obtain ⟨e₂, hend, htext₂, hopen₂⟩ := (hopen₁.wrote hkey).endField
      fun field => { field with keyEnd := (e₁.string (utf8 key)).text.length }
    have hcolon := Encoder.wrote_push hopen₂.sound [0x3a]
    obtain ⟨e₃, hvalue, hwrote⟩ := serialize_wrote value e₂.beginObjectValue hcolon.sound
    obtain ⟨e₄, hstop, htext₄, hopen₄⟩ :=
      ((hopen₂.wrote hcolon).wrote hwrote).endField
        fun field => { field with stop := e₃.text.length }
    obtain ⟨e₅, hrest, htext₅, hopen₅⟩ :=
      serializeEntries_wrote entries false e₄ pre _ _ stack hopen₄
    have hstart : e₁.text.length = skipComma first encoder.text.length := by
      rw [htext₁, length_append, length_comma]
    have hkeyEnd : (e₁.string (utf8 key)).text.length =
        skipComma first encoder.text.length + (quoted (utf8 key)).length := by
      rw [hkey.text_eq, length_append, hstart]
    have hvalueStart : e₂.beginObjectValue.text.length =
        valueStart key (skipComma first encoder.text.length) := by
      have hlength := congrArg List.length hcolon.text_eq
      rw [htext₂, length_append, hkeyEnd] at hlength
      exact hlength
    have hstopAt : e₃.text.length =
        fieldStop spell key value (skipComma first encoder.text.length) := by
      rw [hwrote.text_eq, length_append, hvalueStart, fieldStop]
    refine ⟨e₅, by
      simp [serializeEntries, hbegin, Encoder.endObjectKey, hend, hvalue, Encoder.endObjectValue,
        hstop, hrest], ?_, ?_⟩
    · have hpushed : e₂.beginObjectValue.text = e₂.text ++ [0x3a] := hcolon.text_eq
      rw [htext₅, htext₄, hwrote.text_eq, hpushed, htext₂, hkey.text_eq, htext₁]
      simp [compactEntries]
    · rw [htext₄, hstopAt, hvalueStart, hkeyEnd] at hopen₅
      simpa [fieldSpans, spansEntries] using hopen₅

end

end Serialize

end Eidnara.Daemon.ServedJson
