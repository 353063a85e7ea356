import CodexTeams.ListReplace
import CodexTeams.RustStr

/-! How a job's instruction is filled in with the values of a row: doubled braces are set aside, the
placeholder of each column is replaced in the text so far, and the braces are put back. -/
namespace InstructionTemplate

open RustStr ListReplace List

def openBraceSentinel : Str := "__CODEX_OPEN_BRACE__"

def closeBraceSentinel : Str := "__CODEX_CLOSE_BRACE__"

/-- A value of a row: a string, or another value with its JSON text. -/
inductive RowValue where
  | string (text : Str)
  | json (text : Str)

def RowValue.replacement : RowValue → Str
  | string text | json text => text

/-- A row as it is stored: an object with its entries, or something that is no object. -/
inductive RowJson where
  | object (row : List (Str × RowValue))
  | other

def placeholder (key : Str) : Str := '{' :: (key ++ ['}'])

variable (instruction : Str)

def escapeBraces : Str :=
  replace ['}', '}'] closeBraceSentinel (replace ['{', '{'] openBraceSentinel instruction)

variable (rendered : Str)

def unescapeBraces : Str :=
  replace closeBraceSentinel ['}'] (replace openBraceSentinel ['{'] rendered)

def insertColumn (entry : Str × RowValue) : Str :=
  replace (placeholder entry.1) entry.2.replacement rendered

def renderInstructionTemplate : RowJson → Str
  | .other => unescapeBraces (escapeBraces instruction)
  | .object row => unescapeBraces (row.foldl insertColumn (escapeBraces instruction))

variable (columns : List Str) (value : Str → Str)

def stringRow : RowJson :=
  .object (columns.map fun column => (column, .string (value column)))

inductive Piece where
  | literal (text : Str)
  | reference (column : Str)

def Piece.fill : Piece → Str
  | literal text => text
  | reference column => value column

def fill (pieces : List Piece) (value : Str → Str) : Str := pieces.flatMap (Piece.fill value)

/-- Some sequence of pieces gives the rendered text for all values and orders of the columns. -/
def InsertsVerbatim : Prop :=
  ∃ pieces : List Piece, (∀ column, .reference column ∈ pieces → column ∈ columns) ∧
    ∀ (value : Str → Str) (order : List Str), order.Perm columns →
      renderInstructionTemplate instruction (stringRow order value) = fill pieces value

theorem render_stringRow (i : Str) (cs : List Str) (v : Str → Str) :
    renderInstructionTemplate i (stringRow cs v) = unescapeBraces (cs.foldl
        (fun r c => replace (placeholder c) (v c) r) (escapeBraces i)) := by
  rw [stringRow, renderInstructionTemplate, foldl_map]
  rfl

theorem head_placeholder (key : Str) : (placeholder key).head? = some '{' := rfl

theorem getLast_placeholder (key : Str) : (placeholder key).getLast? = some '}' := by
  rw [placeholder, ← cons_append, List.getLast?_concat]

theorem placeholder_ne_nil (key : Str) : placeholder key ≠ [] := cons_ne_nil _ _

theorem sentinel_not_infix_unescape : ¬ openBraceSentinel <:+: unescapeBraces rendered := by
  intro h
  have hb := infix_of_infix_replace (by decide) (by decide) h
  exact not_infix_replace (by decide) (by decide) hb

variable {cs : List Str} {n : ℕ} {ps : List Piece}

theorem render_of_unused (h : ∀ c ∈ cs, ¬ placeholder c <:+: escapeBraces i) (v : Str → Str) :
    renderInstructionTemplate i (stringRow cs v) = unescapeBraces (escapeBraces i) := by
  rw [render_stringRow]
  induction cs with
  | nil => rfl
  | cons c cs ih =>
    rw [forall_mem_cons] at h
    rw [foldl_cons, replace_of_not_occurs h.1, ih h.2]

def HasRun (n : ℕ) (text : Str) : Prop := ∃ u w, text = u ++ (List.replicate n 'y' ++ w)

theorem HasRun.le_length (h : HasRun n t) : n ≤ t.length := by
  obtain ⟨u, w, rfl⟩ := h
  rw [length_append, length_append, length_replicate]
  omega

theorem HasRun.replace (h : HasRun n t) (hf : pat.head? = some a) (hne : a ≠ 'y')
    (hl : pat.getLast? ≠ some 'y') (hln : pat.length < n) : HasRun n (replace pat r t) := by
  obtain ⟨u, w, rfl⟩ := h
  exact ⟨_, _, replace_append_replicate hf hne hl hln u w⟩

theorem HasRun.unescape (h : HasRun n t) (hl : 21 < n) : HasRun n (unescapeBraces t) := by
  have ho : HasRun n (ListReplace.replace openBraceSentinel ['{'] t) := by
    refine h.replace rfl (by decide) (by decide) ?_
    have hs : openBraceSentinel.length = 20 := rfl
    omega
  refine ho.replace rfl (by decide) (by decide) ?_
  have hs : closeBraceSentinel.length = 21 := rfl
  omega

theorem HasRun.insert (h : HasRun n t) (hl : ∀ c ∈ cs, (placeholder c).length < n) (v : Str → Str) :
    HasRun n (cs.foldl (fun r c => ListReplace.replace (placeholder c) (v c) r) t) := by
  induction cs generalizing t with
  | nil => exact h
  | cons c cs ih =>
    rw [forall_mem_cons] at hl
    apply ih _ hl.2
    refine h.replace (head_placeholder c) (by decide) ?_ hl.1
    rw [getLast_placeholder]
    decide

theorem hasRun_insert (hl : ∀ c ∈ cs, (placeholder c).length < n)
    (hu : ∃ c ∈ cs, placeholder c <:+: t) :
    HasRun n (cs.foldl (fun r c => replace (placeholder c) (List.replicate n 'y') r) t) := by
  induction cs generalizing t with
  | nil =>
    obtain ⟨c, hc, -⟩ := hu
    cases hc
  | cons c cs ih =>
    rw [forall_mem_cons] at hl
    rw [foldl_cons]
    by_cases hf : placeholder c <:+: t
    · obtain ⟨u, w, hr⟩ := exists_replace_of_infix (placeholder_ne_nil c) hf (List.replicate n 'y')
      exact HasRun.insert ⟨u, w, hr⟩ hl.2 _
    · rw [replace_of_not_occurs hf]
      apply ih hl.2
      obtain ⟨o, ho, hi⟩ := hu
      rcases mem_cons.mp ho with rfl | hm
      · exact absurd hi hf
      · exact ⟨o, hm, hi⟩

theorem exists_longer (b : ℕ) (cs : List Str) :
    ∃ n, b < n ∧ ∀ c ∈ cs, (placeholder c).length < n := by
  induction cs with
  | nil => exact ⟨b + 1, Nat.lt_succ_self b, by simp⟩
  | cons c cs ih =>
    obtain ⟨n, hb, hl⟩ := ih
    refine ⟨n + (placeholder c).length + 1, by omega, ?_⟩
    intro o ho
    rcases mem_cons.mp ho with rfl | hm
    · omega
    · have := hl o hm
      omega

/-- A sequence with a reference would show the opening sentinel, which is never rendered. -/
theorem no_reference (h : ∀ v, renderInstructionTemplate i (stringRow cs v) = fill pieces v)
    (c : Str) : .reference c ∉ pieces := by
  intro hm
  have hr := h fun _ => openBraceSentinel
  rw [render_stringRow] at hr
  apply sentinel_not_infix_unescape
  rw [hr]
  obtain ⟨b, after, rfl⟩ := append_of_mem hm
  simp [fill, Piece.fill]

theorem fill_of_no_reference (h : ∀ c, .reference c ∉ ps)
    (v other : Str → Str) : fill ps v = fill ps other := by
  apply flatMap_congr
  intro p hp
  cases p with
  | literal text => rfl
  | reference c => exact absurd hp (h c)

/-- Values are inserted verbatim exactly into the templates that have no placeholder of a
column. -/
theorem insertsVerbatim_iff (instruction : Str) (columns : List Str) :
    InsertsVerbatim instruction columns ↔
      ∀ column ∈ columns, ¬ placeholder column <:+: escapeBraces instruction := by
  constructor
  · rintro ⟨ps, -, hr⟩ column hc hi
    have hf := fun value => hr value columns (List.Perm.refl columns)
    have hcn := fill_of_no_reference (no_reference hf)
    obtain ⟨n, hb, hl⟩ := exists_longer (21 + (fill ps fun _ => []).length) columns
    have hrn := (hasRun_insert hl ⟨column, hc, hi⟩).unescape (by omega)
    rw [← render_stringRow, hf, hcn _ fun _ => []] at hrn
    have hln := hrn.le_length
    omega
  · intro hu
    refine ⟨[.literal (unescapeBraces (escapeBraces instruction))], by simp, ?_⟩
    intro value o hp
    have hu' : ∀ column ∈ o, ¬ placeholder column <:+: escapeBraces instruction :=
      fun column hc => hu column (hp.mem_iff.mp hc)
    rw [render_of_unused hu', fill, flatMap_singleton, Piece.fill]

def BraceFree (text : Str) : Prop := '{' ∉ text ∧ '}' ∉ text

/-- The pieces have no braces but those of their references. -/
def PlainPieces (pieces : List Piece) : Prop :=
  ∀ piece ∈ pieces, match piece with
    | .literal text => BraceFree text
    | .reference column => BraceFree column

def insertedAfter (inserted : List Str) (value : Str → Str) (column : Str) : Str :=
  if column ∈ inserted then value column else placeholder column

theorem placeholder_append_inj (hk : BraceFree key) (ho : BraceFree other)
    (h : placeholder key ++ r = placeholder other ++ r') : key = other := by
  simp only [placeholder, cons_append, List.cons.injEq, true_and, append_assoc] at h
  rcases append_eq_append_iff.mp h with ⟨m, hm, hr⟩ | ⟨m, hm, hr⟩
  · cases m with
    | nil => simpa using hm.symm
    | cons c m =>
      obtain ⟨rfl, -⟩ := List.cons.inj hr
      exact absurd (hm ▸ by simp) ho.2
  · cases m with
    | nil => simpa using hm
    | cons c m =>
      obtain ⟨rfl, -⟩ := List.cons.inj hr
      exact absurd (hm ▸ by simp) hk.2

theorem replace_other_placeholder (hk : BraceFree key) (ho : BraceFree o) (hne : o ≠ key)
    (r : Str) :
    replace (placeholder key) rp (placeholder o ++ r) =
      placeholder o ++ replace (placeholder key) rp r := by
  have hn : ¬ placeholder key <+: placeholder o ++ r := by
    rintro ⟨r', hr⟩
    exact hne (placeholder_append_inj hk ho hr).symm
  have ht : '{' ∉ o ++ ['}'] := by
    simpa using ho.1
  have hs : placeholder o ++ r = '{' :: (o ++ ['}'] ++ r) := rfl
  rw [hs] at hn ⊢
  rw [replace_cons_of_not_head hn, replace_append_of_head (head_placeholder key) ht]
  rfl

theorem replace_fill (hpc : PlainPieces ps) {i : List Str} (hv : ∀ c ∈ i, BraceFree (v c))
    (hk : BraceFree key) :
    replace (placeholder key) (v key) (fill ps (insertedAfter i v)) =
      fill ps (insertedAfter (i ++ [key]) v) := by
  induction ps with
  | nil => rfl
  | cons p ps ih =>
    obtain ⟨hp, hr⟩ := forall_mem_cons.mp hpc
    have ht := ih hr
    simp only [fill, flatMap_cons] at ht ⊢
    cases p with
    | literal text =>
      rw [Piece.fill, replace_append_of_head (head_placeholder key) hp.1, ht]
      rfl
    | reference c =>
      rw [Piece.fill, Piece.fill]
      by_cases hd : c ∈ i
      · rw [insertedAfter, if_pos hd, insertedAfter, if_pos (mem_append_left _ hd),
          replace_append_of_head (head_placeholder key) (hv c hd).1, ht]
      · by_cases heq : c = key
        · subst heq
          rw [insertedAfter, if_neg hd, insertedAfter, if_pos (by simp),
            replace_append_self (placeholder_ne_nil c), ht]
        · rw [insertedAfter, if_neg hd, insertedAfter, if_neg (by simp [hd, heq]),
            replace_other_placeholder hk hp heq, ht]

theorem foldl_fill (hpc : PlainPieces ps) {i : List Str}
    (hp : ∀ c ∈ i ++ cs, BraceFree c ∧ BraceFree (v c)) :
    cs.foldl (fun r c => replace (placeholder c) (v c) r)
      (fill ps (insertedAfter i v)) = fill ps (insertedAfter (i ++ cs) v) := by
  induction cs generalizing i with
  | nil => rw [append_nil, foldl_nil]
  | cons c cs ih =>
    have hk := (hp c (by simp)).1
    have hd : ∀ o ∈ i, BraceFree (v o) := fun o ho =>
      (hp o (mem_append_left _ ho)).2
    rw [foldl_cons, replace_fill hpc hd hk, ih, append_assoc, singleton_append]
    rwa [append_assoc]

/-- Without braces in the literals, the columns and the values, each column's value comes in where
its placeholder stands, whatever the order of the columns; then the set-aside braces are put
back. -/
theorem render_of_braceFree (hi : escapeBraces i = fill ps placeholder) (hp : PlainPieces ps)
    (hc : ∀ c, .reference c ∈ ps → c ∈ cs) (hpl : ∀ c ∈ cs, BraceFree c ∧ BraceFree (value c)) :
    renderInstructionTemplate i (stringRow cs value) = unescapeBraces (fill ps value) := by
  have hs : fill ps placeholder = fill ps (insertedAfter [] value) := rfl
  have he : fill ps (insertedAfter cs value) = fill ps value := by
    apply flatMap_congr
    intro p hpc
    cases p with
    | literal text => rfl
    | reference c => exact if_pos (hc c hpc)
  rw [render_stringRow, hi, hs, foldl_fill hp hpl, nil_append, he]

theorem render_of_braceFree_greeting :
    renderInstructionTemplate ("hi \x7b\x7b" ++ placeholder ['x'] ++ placeholder ['y'])
      (stringRow [['x'], ['y']] fun c => if c = ['x'] then "1" else "2") = "hi \x7b12" := by
  have hb : BraceFree ("hi " ++ openBraceSentinel) := ⟨by decide, by decide⟩
  have hp : PlainPieces [.literal ("hi " ++ openBraceSentinel), .reference ['x'],
      .reference ['y']] := by
    simpa [PlainPieces] using ⟨hb, by simp [BraceFree], by simp [BraceFree]⟩
  have hi : escapeBraces ("hi \x7b\x7b" ++ placeholder ['x'] ++ placeholder ['y']) =
      fill [.literal ("hi " ++ openBraceSentinel), .reference ['x'], .reference ['y']]
        placeholder := by
    decide +kernel
  rw [render_of_braceFree _ hi hp (by simp) (by simp [BraceFree])]
  decide +kernel

/-- A value that names another column is expanded again, or not, by the order of the columns. -/
theorem value_expanded_again :
    let value : Str → Str := fun c =>
      if c = ['a'] then placeholder ['b'] else "secret"
    renderInstructionTemplate (placeholder ['a']) (stringRow [['a'], ['b']] value) = "secret" ∧
      renderInstructionTemplate (placeholder ['a']) (stringRow [['b'], ['a']] value) =
        placeholder ['b'] := by
  decide +kernel

end InstructionTemplate
