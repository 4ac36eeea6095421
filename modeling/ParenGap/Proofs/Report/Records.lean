import Mathlib.Tactic
import ParenGap.Proofs.Command.Outcome
import ParenGap.Proofs.Gap.Verdict
import ParenGap.Proofs.Json.RoundTrip
import ParenGap.Proofs.Position

/-!
# Reading the JSON report

A program that reads the report finds a record for each diagnostic by the names of its members
(`Record.ofJson?`). Nothing is lost between the two: the record that is read has what the diagnostic
and its place say (`Record.of`), an edit included, which is there exactly if the diagnostic has one.

The report itself is text, and the numbers in it are read back as long as they are words of 64 bits
(`Diagnostic.Measured`); rows and columns are, since they count no more than the bytes of the text.
The main statement is `json?_read`.
-/

set_option autoImplicit false

namespace ParenGap

/-! ## Records -/

namespace Report

/-- What a record of the report says. The anchor is the byte at which the first place starts; `line`
and `column`, in characters, are counted from `1`. -/
structure Record where
  rule : String
  messageKind : String
  nodeKind : Option String
  message : String
  anchorOffset : Nat
  line : Nat
  column : Nat
  fix : Option Edit
  deriving DecidableEq, Repr

/-- The record of a diagnostic with the given place. -/
def Record.of (d : Diagnostic) (anchor : Region) (column : Nat) : Record where
  rule := d.rule.name
  messageKind := d.defect.id
  nodeKind := d.callKind.map CallKind.name
  message := d.message
  anchorOffset := anchor.span.start
  line := anchor.first.row + 1
  column := column + 1
  fix := d.edit

/-- The string under a key of an object. -/
def stringAt? (v : Json) (key : String) : Option String := (v.member? key).bind Json.toString?

/-- The natural number under a key of an object. -/
def natAt? (v : Json) (key : String) : Option Nat := (v.member? key).bind Json.toNat?

/-- The string under a key of an object, or none if `null` stands there. -/
def nullableAt? (v : Json) (key : String) : Option (Option String) :=
  (v.member? key).bind fun
    | .null => some none
    | w => w.toString?.map some

/-- The edit that an object of the report stands for. -/
def editOfJson? (v : Json) : Option Edit := do
  let start ← natAt? v "rangeStart"
  let stop ← natAt? v "rangeEnd"
  let replacement ← stringAt? v "replacementText"
  return ⟨⟨start, stop⟩, replacement.toList⟩

/-- The edit under the key `fix` of an object, or none if the object has no such key. -/
def fixOfJson? (v : Json) : Option (Option Edit) :=
  match v.member? "fix" with
  | none => some none
  | some e => (editOfJson? e).map some

/-- The record that an object of the report stands for. All keys but `fix` have to be there. -/
def Record.ofJson? (v : Json) : Option Record := do
  let rule ← stringAt? v "rule"
  let messageKind ← stringAt? v "messageKind"
  let nodeKind ← nullableAt? v "nodeKind"
  let message ← stringAt? v "message"
  let anchorOffset ← natAt? v "anchorOffset"
  let line ← natAt? v "line"
  let column ← natAt? v "column"
  let fix ← fixOfJson? v
  return ⟨rule, messageKind, nodeKind, message, anchorOffset, line, column, fix⟩

end Report

/-- The places of a diagnostic are regions of the text with the given lines, and its offsets are
words of 64 bits. -/
structure Diagnostic.Measured (d : Diagnostic) (lines : Array Text.Line) : Prop where
  places : ∀ l ∈ d.violations, Region.ofSpan? lines l.region.span = some l.region
  offsets : ∀ l ∈ d.violations, l.region.span.start < 2 ^ 64
  edit : ∀ e, d.edit = some e → e.span.start < 2 ^ 64 ∧ e.span.stop < 2 ^ 64

namespace Report

open Json (Legible)

section Records

variable {d : Diagnostic} {anchor : Region} {column depth : Nat} {code : List Char}
  {lines : Array Text.Line} {ds : List Diagnostic} {items : List Json} {v : Json}
  {key value : String}

theorem stringAt?_of_member? (h : v.member? key = some (.string value)) :
    stringAt? v key = some value := by
  rw [stringAt?, h, Option.bind_some, Json.toString?]

theorem natAt?_of_member? {n : Nat} (h : v.member? key = some (.ofNat n)) :
    natAt? v key = some n := by
  rw [natAt?, h, Option.bind_some, Json.toNat?_ofNat]

/-- The edit of a diagnostic is read from the object that is written for it. -/
theorem editOfJson?_editJson (e : Edit) : editOfJson? (editJson e) = some e := by
  have hstart : natAt? (editJson e) "rangeStart" = some e.span.start := natAt?_of_member? rfl
  have hstop : natAt? (editJson e) "rangeEnd" = some e.span.stop := natAt?_of_member? rfl
  have hreplacement : stringAt? (editJson e) "replacementText" =
      some (String.ofList e.replacement) := stringAt?_of_member? rfl
  rw [editOfJson?, hstart, hstop, hreplacement]
  simp only [Option.bind_eq_bind, Option.bind_some, String.toList_ofList, Option.pure_def]

/-- A record has the key `fix` exactly if the diagnostic has an edit. -/
theorem member?_fix_recordJson (d : Diagnostic) (anchor : Region) (column : Nat) :
    (recordJson d anchor column).member? "fix" = d.edit.map editJson := by
  cases h : d.edit with
  | none =>
      rw [recordJson, h]
      rfl
  | some e =>
      rw [recordJson, h]
      rfl

theorem fixOfJson?_recordJson (d : Diagnostic) (anchor : Region) (column : Nat) :
    fixOfJson? (recordJson d anchor column) = some d.edit := by
  rw [fixOfJson?, member?_fix_recordJson]
  cases d.edit with
  | none => rfl
  | some e =>
      rw [Option.map_some]
      simp only [editOfJson?_editJson, Option.map_some]

theorem nullableAt?_recordJson (d : Diagnostic) (anchor : Region) (column : Nat) :
    nullableAt? (recordJson d anchor column) "nodeKind" = some (d.callKind.map CallKind.name) := by
  have hmember : (recordJson d anchor column).member? "nodeKind" =
      some ((d.callKind.map fun kind => Json.string kind.name).getD .null) := rfl
  rw [nullableAt?, hmember, Option.bind_some]
  cases d.callKind <;> rfl

/-- The record of a diagnostic is read from the object that is written for it. -/
theorem ofJson?_recordJson (d : Diagnostic) (anchor : Region) (column : Nat) :
    Record.ofJson? (recordJson d anchor column) = some (.of d anchor column) := by
  have hrule : stringAt? (recordJson d anchor column) "rule" = some d.rule.name :=
    stringAt?_of_member? rfl
  have hdefect : stringAt? (recordJson d anchor column) "messageKind" = some d.defect.id :=
    stringAt?_of_member? rfl
  have hkind := nullableAt?_recordJson d anchor column
  have hmessage : stringAt? (recordJson d anchor column) "message" = some d.message :=
    stringAt?_of_member? rfl
  have hoffset : natAt? (recordJson d anchor column) "anchorOffset" = some anchor.span.start :=
    natAt?_of_member? rfl
  have hline : natAt? (recordJson d anchor column) "line" = some (anchor.first.row + 1) :=
    natAt?_of_member? rfl
  have hcolumn : natAt? (recordJson d anchor column) "column" = some (column + 1) :=
    natAt?_of_member? rfl
  have hfix := fixOfJson?_recordJson d anchor column
  rw [Record.ofJson?, hrule, hdefect, hkind, hmessage, hoffset, hline, hcolumn, hfix]
  rfl

theorem legible_editJson {e : Edit} (h : e.span.start < 2 ^ 64 ∧ e.span.stop < 2 ^ 64) :
    Legible (depth + 1) (editJson e) := by
  refine .object fun m hm => ?_
  simp only [List.mem_cons, List.not_mem_nil, or_false] at hm
  rcases hm with rfl | rfl | rfl
  exacts [.number h.1, .number h.2, .string _]

theorem legible_recordJson (hoffset : anchor.span.start < 2 ^ 64)
    (hrow : anchor.first.row + 1 < 2 ^ 64) (hcolumn : column + 1 < 2 ^ 64)
    (hedit : ∀ e, d.edit = some e → e.span.start < 2 ^ 64 ∧ e.span.stop < 2 ^ 64) :
    Legible (depth + 2) (recordJson d anchor column) := by
  have hkind : Legible (depth + 1)
      ((d.callKind.map fun kind => Json.string kind.name).getD .null) := by
    cases d.callKind with
    | none => exact .null
    | some kind => exact .string _
  refine .object fun m hm => ?_
  rcases List.mem_append.1 hm with hm | hm
  · simp only [List.mem_cons, List.not_mem_nil, or_false] at hm
    rcases hm with rfl | rfl | rfl | rfl | rfl | rfl | rfl
    exacts [.string _, .string _, hkind, .string _, .number hoffset, .number hrow, .number hcolumn]
  · obtain ⟨e, he, rfl⟩ := Option.map_eq_some_iff.1 (Option.mem_toList.1 hm)
    exact legible_editJson (hedit e he)

/-! ## The report -/

/-- Diagnostics without a place are left out of the report. -/
theorem recordsJson?_filter (lines : Array Text.Line) (ds : List Diagnostic) :
    recordsJson? lines (ds.filter fun d => !d.violations.isEmpty) = recordsJson? lines ds := by
  induction ds with
  | nil => rfl
  | cons d ds ih =>
      cases hviolations : d.violations with
      | nil =>
          have hanchor : d.anchor? = none := by rw [Diagnostic.anchor?, hviolations]; rfl
          rw [List.filter_cons_of_neg (by simp [hviolations]), ih]
          simp only [recordsJson?, hanchor]
      | cons l ls =>
          rw [List.filter_cons_of_pos (by simp [hviolations])]
          simp only [recordsJson?, ih]

/-- A measured diagnostic with a violation has a place. -/
theorem exists_placed_of_measured (h : d.Measured lines) (hd : d.violations ≠ []) :
    ∃ anchor column, d.Placed lines anchor column := by
  obtain ⟨l, ls, hviolations⟩ := List.exists_cons_of_ne_nil hd
  have hl : l ∈ d.violations := by simp [hviolations]
  obtain ⟨column, hcolumn⟩ := Region.exists_charColumn? (h.places l hl)
  exact ⟨l.region, column, by rw [Diagnostic.anchor?, hviolations]; rfl, hcolumn⟩

/-- The row and the column of a place are no more than the bytes of the text. -/
theorem le_byteLength_of_placed (h : d.Measured (Text.lines code).toArray)
    (hd : d.Placed (Text.lines code).toArray anchor column) :
    anchor.first.row ≤ Text.byteLength code ∧ column ≤ Text.byteLength code := by
  obtain ⟨l, hl, rfl⟩ := Option.map_eq_some_iff.1 hd.1
  obtain ⟨first, hfirst, hregion⟩ :=
    Option.bind_eq_some_iff.1 (h.places l (List.mem_of_mem_head? hl))
  obtain ⟨last, -, hregion⟩ := Option.map_eq_some_iff.1 hregion
  obtain ⟨place, hplace, rfl⟩ := Option.map_eq_some_iff.1 hfirst
  obtain ⟨place', hplace', rfl⟩ := Option.map_eq_some_iff.1 hd.2
  rw [← hregion]
  exact ⟨(Position.locate?_le hplace).1, (Position.locate?_le hplace').2⟩

theorem legible_of_placed (hcode : Text.byteLength code < 2 ^ 63)
    (h : d.Measured (Text.lines code).toArray)
    (hd : d.Placed (Text.lines code).toArray anchor column) :
    Legible (depth + 2) (recordJson d anchor column) := by
  obtain ⟨hrow, hcolumn⟩ := le_byteLength_of_placed h hd
  obtain ⟨l, hl, hregion⟩ := Option.map_eq_some_iff.1 hd.1
  have hoffset := h.offsets l (List.mem_of_mem_head? hl)
  rw [hregion] at hoffset
  exact legible_recordJson hoffset (by omega) (by omega) h.edit

theorem legible_of_mem_items (hcode : Text.byteLength code < 2 ^ 63)
    (hds : ∀ d ∈ ds, d.Measured (Text.lines code).toArray)
    (h : List.Forall₂ (fun d v => ∃ anchor column,
      d.Placed (Text.lines code).toArray anchor column ∧ v = recordJson d anchor column) ds items) :
    ∀ v ∈ items, Legible (depth + 2) v := by
  induction h with
  | nil => exact List.forall_mem_nil _
  | cons hd _ ih =>
      obtain ⟨anchor, column, hplaced, rfl⟩ := hd
      rw [List.forall_mem_cons] at hds ⊢
      exact ⟨legible_of_placed hcode hds.1 hplaced, ih hds.2⟩

/-- From the objects of placed diagnostics their records are read. -/
theorem exists_records (h : List.Forall₂ (fun d v => ∃ anchor column,
      d.Placed lines anchor column ∧ v = recordJson d anchor column) ds items) :
    ∃ records, items.mapM Record.ofJson? = some records ∧
      List.Forall₂ (fun d record => ∃ anchor column, d.Placed lines anchor column ∧
        record = .of d anchor column) ds records := by
  induction h with
  | nil => exact ⟨[], rfl, .nil⟩
  | cons hd _ ih =>
      obtain ⟨anchor, column, hplaced, rfl⟩ := hd
      obtain ⟨records, hrecords, hall⟩ := ih
      refine ⟨.of _ anchor column :: records, ?_, .cons ⟨anchor, column, hplaced, rfl⟩ hall⟩
      rw [List.mapM_cons, ofJson?_recordJson, hrecords]
      rfl

/-- The report on measured diagnostics is a JSON array and a new line, for every text that can be
held in memory. What is read from it is a record for each diagnostic that has a violation, in their
order, with what the diagnostic and its place say. -/
theorem json?_read (hcode : Text.byteLength code < 2 ^ 63)
    (hds : ∀ d ∈ ds, d.Measured (Text.lines code).toArray) :
    ∃ items records,
      json? (Text.lines code).toArray ds = some ((Json.array items).write 0 ++ ['\n']) ∧
      Json.read ((Json.array items).write 0) = .ok (.array items) ∧
      Json.read ((Json.array items).write 0 ++ ['\n']) = .ok (.array items) ∧
      items.mapM Record.ofJson? = some records ∧
      List.Forall₂ (fun d record => ∃ anchor column,
          d.Placed (Text.lines code).toArray anchor column ∧ record = .of d anchor column)
        (ds.filter fun d => !d.violations.isEmpty) records := by
  have hkept : ∀ d ∈ ds.filter fun d => !d.violations.isEmpty,
      d.Measured (Text.lines code).toArray ∧ d.violations ≠ [] := by
    intro d hd
    obtain ⟨hd, hviolations⟩ := List.mem_filter.1 hd
    exact ⟨hds d hd, by simpa using hviolations⟩
  obtain ⟨items, hitems, hall⟩ := exists_recordsJson? fun d hd =>
    exists_placed_of_measured (hkept d hd).1 (hkept d hd).2
  rw [recordsJson?_filter] at hitems
  have hlegible : Legible Json.Reader.depthLimit (.array items) :=
    .array (legible_of_mem_items hcode (fun d hd => (hkept d hd).1) hall)
  obtain ⟨records, hrecords, hread⟩ := exists_records hall
  refine ⟨items, records, ?_, ?_, Json.read_write hlegible 0 1, hrecords, hread⟩
  · rw [json?, hitems, Option.map_some]
  · have h := Json.read_write hlegible 0 0
    rwa [List.replicate_zero, List.append_nil] at h

end Records

/-! ## A diagnostic with characters that are escaped -/

/-- A diagnostic at a region, whose texts have quotes, backslashes and control characters. -/
def quotedDiagnostic (region : Region) : Diagnostic where
  rule := .callSpacing
  defect := .unexpectedSpace
  message := "\"f\"\\\n\x01é"
  callKind := none
  violations := [⟨"a.js", region, "\t"⟩]
  references := []
  edit := some ⟨⟨3, 4⟩, ['"', '\\', '\x1f']⟩

/-- Of a diagnostic with a place and one without, the report has a record of the first. -/
theorem json?_read_quotedDiagnostic :
    ∃ region text items record,
      Region.ofSpan? (Text.lines Site.groupedCode).toArray ⟨2, 3⟩ = some region ∧
        (quotedDiagnostic region).Measured (Text.lines Site.groupedCode).toArray ∧
        json? (Text.lines Site.groupedCode).toArray
          [quotedDiagnostic region, { quotedDiagnostic region with violations := [] }] =
            some text ∧
        Json.read text = .ok (.array items) ∧ items.mapM Record.ofJson? = some [record] ∧
        record.message = "\"f\"\\\n\x01é" ∧ record.nodeKind = none ∧
        record.fix = some ⟨⟨3, 4⟩, ['"', '\\', '\x1f']⟩ := by
  have hstart : Text.IsPlace Site.groupedCode 2 := Text.isPlace_iff_cut?.2 (by decide)
  have hstop : Text.IsPlace Site.groupedCode 3 := Text.isPlace_iff_cut?.2 (by decide)
  obtain ⟨region, hregion, hspan⟩ : ∃ region,
      Region.ofSpan? (Text.lines Site.groupedCode).toArray ⟨2, 3⟩ = some region ∧
        region.span = ⟨2, 3⟩ := Region.exists_ofSpan? hstart hstop
  have hedit : ∀ e, some (⟨⟨3, 4⟩, ['"', '\\', '\x1f']⟩ : Edit) = some e →
      e.span.start < 2 ^ 64 ∧ e.span.stop < 2 ^ 64 := by
    rintro e ⟨⟩
    decide
  have hplaced : (quotedDiagnostic region).Measured (Text.lines Site.groupedCode).toArray := by
    refine ⟨List.forall_mem_singleton.2 ?_, List.forall_mem_singleton.2 ?_, hedit⟩
    · rw [hspan]
      exact hregion
    · rw [hspan]
      decide
  have hplaceless : Diagnostic.Measured { quotedDiagnostic region with violations := [] }
      (Text.lines Site.groupedCode).toArray :=
    ⟨List.forall_mem_nil _, List.forall_mem_nil _, hedit⟩
  have hcode : Text.byteLength Site.groupedCode < 2 ^ 63 := by decide
  obtain ⟨items, records, hjson, -, hread, hrecords, hall⟩ := json?_read hcode
    (List.forall_mem_cons.2 ⟨hplaced, List.forall_mem_singleton.2 hplaceless⟩)
  cases hall with
  | cons hrecord hrest =>
      obtain ⟨anchor, column, -, rfl⟩ := hrecord
      cases hrest
      exact ⟨region, _, items, _, hregion, hplaced, hjson, hread, hrecords, rfl, rfl, rfl⟩

end Report

end ParenGap
