import CodexTeams.AgentJobs

/-! The CSV export of an agent job, and how it is read back. -/
namespace JobCsv

open List RustStr AgentJobs

/-- A JSON value: null, a string, or another value with its JSON text. -/
inductive Value where
  | null
  | string (text : Str)
  | json (text : Str)

/-- What is exported of an item. The row is an object or something else. -/
structure Item where
  jobId : Str
  itemId : Str
  rowIndex : ℤ
  sourceId : Option Str
  rowJson : Option (List (Str × Value))
  status : AgentJobItemStatus
  attemptCount : ℤ
  lastError : Option Str
  resultJson : Option Str
  reportedAt : Option Str
  completedAt : Option Str

def csvEscape (value : Str) : Str :=
  if ',' ∈ value ∨ '\n' ∈ value ∨ '\r' ∈ value ∨ '"' ∈ value then
    '"' :: value.flatMap (fun c => if c = '"' then ['"', '"'] else [c]) ++ ['"']
  else value

def valueToCsvString : Value → Str
  | .null => []
  | .string text | .json text => text

def statusStr : AgentJobItemStatus → Str
  | .pending => "pending"
  | .running => "running"
  | .completed => "completed"
  | .failed => "failed"

def addedHeaders : List Str :=
  ["job_id", "item_id", "row_index", "source_id", "status", "attempt_count", "last_error",
    "result_json", "reported_at", "completed_at"]

section

variable (headers : List Str)

/-- The texts of an item's cells. -/
def rowValues (row : List (Str × Value)) (item : Item) : List Str :=
  headers.map (fun header => ((row.lookup header).map valueToCsvString).getD []) ++
    [item.jobId, item.itemId, (toString item.rowIndex).toList, item.sourceId.getD [],
      statusStr item.status, (toString item.attemptCount).toList, item.lastError.getD [],
      item.resultJson.getD [], item.reportedAt.getD [], item.completedAt.getD []]

def csvLine (values : List Str) : Str := [','].intercalate (values.map csvEscape) ++ ['\n']

def renderItems : List Item → Except Str Str
  | [] => .ok []
  | item :: items => match item.rowJson with
    | none => .error ("row_json for item " ++ item.itemId ++ " is not a JSON object")
    | some row => (renderItems items).map (csvLine (rowValues headers row item) ++ ·)

def renderJobCsv (items : List Item) : Except Str Str :=
  (renderItems headers items).map (csvLine (headers ++ addedHeaders) ++ ·)

end

inductive Mode where
  | start
  | unquoted
  | quoted
  | closing
  deriving DecidableEq

/-- The records of RFC 4180: the fields of the record so far, the field and where in it we are. -/
def readRecords (record : List Str) (field : Str) : Mode → Str → List (List Str)
  | mode, [] => if mode = .start ∧ record = [] then [] else [record ++ [field]]
  | mode, c :: s =>
    if mode = .quoted then
      if c = '"' then readRecords record field .closing s
      else readRecords record (field ++ [c]) .quoted s
    else if c = ',' then readRecords (record ++ [field]) [] .start s
    else if c = '\n' then (record ++ [field]) :: readRecords [] [] .start s
    else if c = '\r' ∧ s.head? = some '\n' then readRecords record field mode s
    else if c = '"' ∧ mode = .start then readRecords record field .quoted s
    else if c = '"' ∧ mode = .closing then readRecords record (field ++ [c]) .quoted s
    else readRecords record (field ++ [c]) .unquoted s

def parseCsv (content : Str) : List Str × List (List Str) :=
  match readRecords [] [] .start content with
  | [] => ([], [])
  | headers :: rows => (headers.modifyHead (dropWhile (· = '\ufeff') ·),
    rows.filter fun row => ! row.all (· = []))

variable (r : List Str)

theorem read_quoted (f v s : Str) :
    readRecords r f .quoted (v.flatMap (fun c => if c = '"' then ['"', '"'] else [c]) ++ '"' :: s) =
      readRecords r (f ++ v) .closing s := by
  induction v generalizing f with
  | nil => simp [readRecords]
  | cons c v ih =>
    rw [flatMap_cons, append_assoc, append_cons f, ← ih]
    by_cases hc : c = '"' <;> simp [readRecords, hc]

theorem read_plain (h : ¬ (',' ∈ v ∨ '\n' ∈ v ∨ '\r' ∈ v ∨ '"' ∈ v)) (r : List Str) (f : Str)
    (m : Mode) (hm : m ≠ .quoted) : ∃ m', m' ≠ .quoted ∧ ∀ s,
      readRecords r f m (v ++ s) = readRecords r (f ++ v) m' s := by
  induction v generalizing f m with
  | nil => exact ⟨m, hm, fun s => by rw [nil_append, append_nil]⟩
  | cons c v ih =>
    simp only [mem_cons, not_or] at h
    obtain ⟨m', hm', hs⟩ := ih (by simp [h]) (f ++ [c]) .unquoted nofun
    refine ⟨m', hm', fun s => ?_⟩
    rw [append_cons, ← hs]
    simp [readRecords, hm, Ne.symm, h]

theorem read_csvEscape (v : Str) : ∃ m, m ≠ .quoted ∧ ∀ s,
    readRecords r [] .start (csvEscape v ++ s) = readRecords r v m s := by
  rw [csvEscape]
  split
  · refine ⟨.closing, nofun, fun s => ?_⟩
    rw [append_assoc, cons_append, readRecords]
    exact read_quoted r [] v s
  · next h => exact read_plain h r [] .start nofun

theorem read_csvLine (hne : vs ≠ []) (s : Str) :
    readRecords r [] .start (csvLine vs ++ s) = (r ++ vs) :: readRecords [] [] .start s := by
  induction vs generalizing r with
  | nil => cases hne rfl
  | cons v vs ih =>
    obtain ⟨m, hm, hv⟩ := read_csvEscape r v
    cases vs with
    | nil => simp [csvLine, hv, readRecords, hm]
    | cons w vs =>
      have hw := ih (r ++ [v]) (cons_ne_nil w vs)
      rw [append_cons, ← hw]
      simp [csvLine, intercalate_cons_cons, hv, readRecords, hm]

theorem read_csvLines (h : ∀ vs ∈ ls, vs ≠ []) :
    readRecords [] [] .start (ls.flatMap csvLine) = ls := by
  induction ls with
  | nil => rfl
  | cons vs ls ih =>
    obtain ⟨hv, h⟩ := forall_mem_cons.mp h
    rw [flatMap_cons, read_csvLine [] hv, ih h, nil_append]

theorem renderItems_eq (h : ∀ item ∈ items, item.rowJson.isSome) : renderItems headers items = .ok
    ((items.map fun item => rowValues headers (item.rowJson.getD []) item).flatMap csvLine) := by
  induction items with
  | nil => rfl
  | cons item items ih =>
    obtain ⟨hr, h⟩ := forall_mem_cons.mp h
    obtain ⟨row, hr⟩ := Option.isSome_iff_exists.mp hr
    rw [renderItems, hr, ih h, map_cons, flatMap_cons, hr]
    rfl

theorem statusStr_mem (headers : List Str) (row : List (Str × Value)) (item : Item) :
    statusStr item.status ∈ rowValues headers row item := by
  simp [rowValues]

/-- The export of a job is read back as it was. -/
theorem export_read_back (headers : List Str) (items : List Item)
    (hbom : ∀ first ∈ headers.head?, first.head? ≠ some '\ufeff')
    (hrows : ∀ item ∈ items, item.rowJson.isSome) : ∃ csv, renderJobCsv headers items = .ok csv ∧
      parseCsv csv = (headers ++ addedHeaders,
        items.map fun item => rowValues headers (item.rowJson.getD []) item) := by
  set rows := items.map fun item => rowValues headers (item.rowJson.getD []) item with hr
  have hs : ∀ vs ∈ rows, ∃ v ∈ vs, v ≠ [] := by
    intro vs hv
    obtain ⟨item, -, rfl⟩ := mem_map.mp hv
    exact ⟨_, statusStr_mem .., by cases item.status <;> decide⟩
  have hh : (headers ++ addedHeaders).modifyHead (dropWhile (· = '\ufeff') ·) =
      headers ++ addedHeaders := by
    rcases headers with _ | ⟨_ | ⟨c, first⟩, headers⟩
    · rfl
    · rfl
    · have hc : c ≠ '\ufeff' := by simpa using hbom
      simp [hc]
  refine ⟨((headers ++ addedHeaders) :: rows).flatMap csvLine, ?_, ?_⟩
  · rw [renderJobCsv, renderItems_eq hrows]
    rfl
  · have hl : ∀ vs ∈ (headers ++ addedHeaders) :: rows, vs ≠ [] := by
      refine forall_mem_cons.mpr ⟨by simp [addedHeaders], fun vs hv => ?_⟩
      obtain ⟨v, hv, -⟩ := hs vs hv
      exact ne_nil_of_mem hv
    have hf : rows.filter (fun row => ! row.all (· = [])) = rows :=
      filter_eq_self.mpr (by simpa using hs)
    simp only [parseCsv, read_csvLines hl, hh, hf]

def sampleItem : Item :=
  ⟨"j", "i", 0, none, some [("h", .string "x,\"\r")], .completed, 1, none, none, none, none⟩

theorem export_read_back_escaped : let headers : List Str := ["h"]
    ∃ csv, renderJobCsv headers [sampleItem] = .ok csv ∧ parseCsv csv = (headers ++ addedHeaders,
      [rowValues headers (sampleItem.rowJson.getD []) sampleItem]) :=
  export_read_back ["h"] [sampleItem] (by decide) (by decide)

end JobCsv
