import CodexTeams.RustStr
import Mathlib.Data.List.Nodup

/-! The file of rules that accepted amendments are written to, one rule to a line. Each step of the
file system may fail, and what was written until then stays. -/
namespace RulesFile

open RustStr List

def escapeChar (c : Char) : Str :=
  if c = '"' then ['\\', '"']
  else if c = '\\' then ['\\', '\\']
  else if c.toNat = 8 then ['\\', 'b']
  else if c.toNat = 9 then ['\\', 't']
  else if c.toNat = 10 then ['\\', 'n']
  else if c.toNat = 12 then ['\\', 'f']
  else if c.toNat = 13 then ['\\', 'r']
  else if c.toNat < 32 then
    ['\\', 'u', '0', '0', Nat.digitChar (c.toNat / 16), Nat.digitChar (c.toNat % 16)]
  else [c]

def jsonString (s : Str) : Str := '"' :: s.flatMap escapeChar ++ ['"']

def ruleStart : Str := "prefix_rule(pattern=["

def ruleEnd : Str := "], decision=\"allow\")"

def ruleLine (pre : List Str) : Str :=
  ruleStart ++ List.intercalate [',', ' '] (pre.map jsonString) ++ ruleEnd

inductive FileStep
  | createDir
  | openFile
  | lock
  | seek
  | read
  | writeNewline
  | writeLine
  deriving DecidableEq, Repr

inductive AmendError
  | emptyPattern
  | createPolicyDir
  | openPolicyFile
  | lockPolicyFile
  | seekPolicyFile
  | readPolicyFile
  | writePolicyFile
  deriving DecidableEq, Repr

/-- Which steps fail. A write that fails has put so many characters into the file, and not the
newline at the end of the line. -/
abbrev Faults := FileStep → Option ℕ

variable (contents : Str)

def separator : Str :=
  if contents ≠ [] ∧ contents.getLast? ≠ some '\n' then ['\n'] else []

variable (faults : Faults) (contents line : Str)

def appendLockedLine : Str × Except AmendError Unit :=
  if (faults .openFile).isSome then (contents, .error .openPolicyFile)
  else if (faults .lock).isSome then (contents, .error .lockPolicyFile)
  else if (faults .seek).isSome then (contents, .error .seekPolicyFile)
  else if (faults .read).isSome then (contents, .error .readPolicyFile)
  else if line ∈ lines contents then (contents, .ok ())
  else if separator contents ≠ [] ∧ (faults .writeNewline).isSome then
    (contents, .error .writePolicyFile)
  else
    match faults .writeLine with
    | some written =>
      (contents ++ separator contents ++ line.take written, .error .writePolicyFile)
    | none => (contents ++ separator contents ++ line ++ ['\n'], .ok ())

def appendRuleLine : Str × Except AmendError Unit :=
  if (faults .createDir).isSome then (contents, .error .createPolicyDir)
  else appendLockedLine faults contents line

def blockingAppendAllowPrefixRule (pre : List Str) : Str × Except AmendError Unit :=
  if pre = [] then (contents, .error .emptyPattern)
  else appendRuleLine faults contents (ruleLine pre)

theorem newline_notMem_escapeChar (c : Char) : '\n' ∉ escapeChar c := by
  intro hm
  unfold escapeChar at hm
  split_ifs at hm with _ _ _ _ hn
  case neg => exact hn (mem_singleton.mp hm ▸ rfl)
  all_goals simp at hm

theorem newline_notMem_jsonString (s : Str) : '\n' ∉ jsonString s := by
  have he : '\n' ∉ s.flatMap escapeChar := by
    intro hm
    obtain ⟨c, -, hc⟩ := mem_flatMap.mp hm
    exact newline_notMem_escapeChar c hc
  have hq : '\n' ∉ '"' :: s.flatMap escapeChar := not_mem_cons_of_ne_of_not_mem (by decide) he
  exact not_mem_append hq (by decide)

theorem newline_notMem_intercalate (h : ∀ t ∈ texts, '\n' ∉ t) :
    '\n' ∉ List.intercalate [',', ' '] texts := by
  induction texts with
  | nil => exact not_mem_nil
  | cons t texts ih =>
    have hr := ih fun o ho => h o (mem_cons_of_mem t ho)
    have ht := h t mem_cons_self
    cases texts with
    | nil =>
      rw [intercalate_singleton]
      exact ht
    | cons next texts =>
      rw [intercalate_cons_cons]
      exact not_mem_append (not_mem_append ht (by decide)) hr

/-- The text of a rule is one line, whatever the words of the command are. -/
theorem plainLine_ruleLine (pre : List Str) : PlainLine (ruleLine pre) where
  noNewline := by
    have hw : '\n' ∉ List.intercalate [',', ' '] (pre.map jsonString) := by
      apply newline_notMem_intercalate
      intro text ht
      obtain ⟨w, -, rfl⟩ := mem_map.mp ht
      exact newline_notMem_jsonString w
    have hs : '\n' ∉ ruleStart := by decide
    exact not_mem_append (not_mem_append hs hw) (by decide)
  noReturn := by
    have he : ruleEnd.getLast? = some ')' := by decide
    rw [ruleLine, List.getLast?_append, he, Option.some_or]
    decide

theorem splitLines_separator (cs : Str) : (splitLines [] (cs ++ separator cs)).2 = [] := by
  unfold separator
  split
  · rw [splitLines_append]
    rfl
  · rename_i hd
    rw [append_nil]
    by_cases hn : cs = []
    · rw [hn]
      rfl
    · have hl : cs.getLast? = some '\n' := by
        by_contra hne
        exact hd ⟨hn, hne⟩
      obtain ⟨b, rfl⟩ := List.getLast?_eq_some_iff.mp hl
      rw [splitLines_append]
      rfl

theorem lines_append (cs : Str) (hl : PlainLine l) : lines (cs ++ separator cs ++ l ++ ['\n']) =
      (splitLines [] (cs ++ separator cs)).1.map stripCr ++ [l] := by
  have hl' : splitLines [] (l ++ ['\n']) = ([l], []) := by
    rw [splitLines_append, splitLines_of_not_mem hl.noNewline]
    rfl
  rw [lines, linesFrom_eq, append_assoc, splitLines_append, splitLines_separator, hl']
  simp [stripCr_of_ne hl.noReturn]

theorem mem_lines_append (hl : PlainLine l) : l ∈ lines (cs ++ separator cs ++ l ++ ['\n']) := by
  rw [lines_append cs hl]
  exact mem_append_right _ (mem_singleton_self l)

/-- Nothing that was in the file is lost, and after a success the line is in it. -/
def Recorded (appended : Str × Except AmendError Unit) : Prop :=
  contents <+: appended.1 ∧ (appended.2 = .ok () → line ∈ lines appended.1)

theorem recorded_error (h : cs <+: k) (e : AmendError) : Recorded cs l (k, .error e) := by
  exact ⟨h, nofun⟩

variable (fs : Faults)

theorem recorded_appendLockedLine (contents : Str) (hl : PlainLine l) :
    Recorded contents l (appendLockedLine fs contents l) := by
  unfold appendLockedLine
  split_ifs with _ _ _ _ hm
  · exact recorded_error prefix_rfl _
  · exact recorded_error prefix_rfl _
  · exact recorded_error prefix_rfl _
  · exact recorded_error prefix_rfl _
  · exact ⟨prefix_rfl, fun _ => hm⟩
  · exact recorded_error prefix_rfl _
  · split
    · rw [append_assoc]
      exact recorded_error (prefix_append _ _) _
    · refine ⟨?_, fun _ => mem_lines_append hl⟩
      rw [append_assoc, append_assoc]
      exact prefix_append _ _

theorem recorded_blockingAppend (cs : Str) (pre : List Str) :
    Recorded cs (ruleLine pre) (blockingAppendAllowPrefixRule fs cs pre) := by
  unfold blockingAppendAllowPrefixRule
  split
  · exact recorded_error prefix_rfl _
  · unfold appendRuleLine
    split
    · exact recorded_error prefix_rfl _
    · exact recorded_appendLockedLine fs cs (plainLine_ruleLine pre)

def appendNext (file : Str × List Str) (call : Faults × Str) : Str × List Str :=
  let (contents, result) := appendLockedLine call.1 file.1 call.2
  (contents, match result with
    | .ok () => file.2 ++ [call.2]
    | .error _ => file.2)

/-- One call after another, each with its own failures: the file, and the lines of the calls that
succeeded. -/
def appendAll (calls : List (Faults × Str)) : Str × List Str :=
  calls.foldl appendNext (contents, [])

/-- The part of its line that a call leaves behind when the write of the line fails. -/
def leftover (call : Faults × Str) : Str :=
  match call.1 .writeLine with
  | some written => call.2.take written
  | none => []

theorem leftover_sublist (call : Faults × Str) : leftover call <+ call.2 := by
  unfold leftover
  split
  · exact take_sublist _ _
  · exact nil_sublist _

theorem lines_separator (h : cs.getLast? ≠ some '\r') :
    (splitLines [] (cs ++ separator cs)).1.map stripCr = lines cs := by
  have he := splitLines_separator cs
  rw [lines, linesFrom_eq]
  unfold separator at he ⊢
  split at he
  · next hs =>
    obtain ⟨q, c, rfl⟩ := (eq_nil_or_concat' cs).resolve_left hs.1
    simp only [getLast?_concat, ne_eq, Option.some.injEq] at hs h
    have hr : ∀ b : Str, stripCr (b ++ [c]) = b ++ [c] := fun b =>
      stripCr_of_ne (by simpa using h)
    simp [splitLines_append _ q, splitLines, hs.2, hr]
  · next hs =>
    rw [append_nil] at he
    rw [if_neg hs, append_nil, he, if_pos rfl, append_nil]

theorem lines_append_part (h : cs.getLast? ≠ some '\r') (hr : '\n' ∉ r) :
    lines (cs ++ separator cs ++ r) = lines cs ++ if r = [] then [] else [r] := by
  rw [← lines_separator h, lines, linesFrom_eq, splitLines_append, splitLines_separator,
    splitLines_of_not_mem hr, append_nil, nil_append]

/-- The file after some calls: what was there first, and then new lines, each once but for what
failed writes have left. -/
structure Grown (contents : Str) (calls : List (Faults × Str)) (file : Str × List Str) : Prop where
  kept : ∃ added, lines file.1 = lines contents ++ added ∧
    ∀ l ∈ added, l ∉ calls.map leftover → added.count l = 1 ∧ l ∉ lines contents
  recorded : ∀ l ∈ file.2, l ∈ lines file.1
  ended : file.1 = contents ∨ file.1.getLast? = some '\n' ∨
    ∃ call ∈ calls, leftover call ≠ [] ∧ leftover call <:+ file.1

section

variable (h : Grown cs calls f)

include h

theorem Grown.same (call : Faults × Str) : Grown cs (calls ++ [call]) f := by
  obtain ⟨added, ha, hn⟩ := h.kept
  refine ⟨⟨added, ha, fun l hl hc => hn l hl fun hm => hc ?_⟩, h.recorded, ?_⟩
  · rw [map_append]
    exact mem_append_left _ hm
  · refine h.ended.imp_right fun he => he.imp_right ?_
    rintro ⟨c, hc, hr⟩
    exact ⟨c, mem_append_left _ hc, hr⟩

theorem Grown.noReturn (hr : cs.getLast? ≠ some '\r')
    (hp : ∀ call ∈ calls, (leftover call).getLast? ≠ some '\r') : f.1.getLast? ≠ some '\r' := by
  rcases h.ended with he | he | ⟨call, hc, hne, b, hb⟩
  · rwa [he]
  · rw [he]
    decide
  · have hl := hp call hc
    rwa [← hb, getLast?_append_of_ne_nil _ hne]

/-- A new line goes behind the others, whole or in part. -/
theorem Grown.add (call : Faults × Str)
    (hl : lines file = lines f.1 ++ [l]) (hn : l = leftover call ∨ l ∉ lines f.1)
    (he : file.getLast? = some '\n' ∨ leftover call ≠ [] ∧ leftover call <:+ file) :
    Grown cs (calls ++ [call]) (file, f.2) := by
  obtain ⟨added, ha, hk⟩ := h.kept
  refine ⟨⟨added ++ [l], by rw [hl, ha, append_assoc], fun k hm hc => ?_⟩, ?_, .inr ?_⟩
  · rw [map_append, mem_append, not_or, map_singleton, mem_singleton] at hc
    rw [count_append, count_singleton]
    by_cases hkl : k = l
    · subst hkl
      have hnm := hn.resolve_left hc.2
      rw [ha, mem_append, not_or] at hnm
      exact ⟨by simp [count_eq_zero.mpr hnm.2], hnm.1⟩
    · obtain ⟨ho, hnc⟩ := hk k ((mem_append.mp hm).resolve_right (by simpa using hkl)) hc.1
      exact ⟨by simp [ho, Ne.symm hkl], hnc⟩
  · exact fun k hm => hl ▸ mem_append_left _ (h.recorded k hm)
  · exact he.imp_right fun he => ⟨call, mem_append_right _ (mem_singleton_self _), he⟩

theorem Grown.next (hf : f.1.getLast? ≠ some '\r') (hl : PlainLine call.2) :
    Grown cs (calls ++ [call]) (appendNext f call) := by
  have hs := h.same call
  have hnl : '\n' ∉ leftover call := fun hm => hl.noNewline ((leftover_sublist call).subset hm)
  have hpt := lines_append_part hf hnl
  have hok : ∀ {file}, Grown cs (calls ++ [call]) (file, f.2) → call.2 ∈ lines file →
      Grown cs (calls ++ [call]) (file, f.2 ++ [call.2]) := by
    refine fun {file} hg hm => { hg with recorded := fun k hk => ?_ }
    rcases mem_append.mp hk with hk | hk
    · exact hg.recorded k hk
    · exact mem_singleton.mp hk ▸ hm
  unfold appendNext appendLockedLine
  split_ifs with _ _ _ _ hm _
  · exact hs
  · exact hs
  · exact hs
  · exact hs
  · exact hok hs hm
  · exact hs
  · cases hw : call.1 .writeLine with
    | some n =>
      have hlo : leftover call = call.2.take n := by rw [leftover, hw]
      dsimp only
      rw [← hlo]
      by_cases hne : leftover call = []
      · rw [if_pos hne, hne, append_nil, append_nil] at hpt
        rw [hne, append_nil]
        refine ⟨by rw [hpt]; exact hs.kept, by rw [hpt]; exact hs.recorded, ?_⟩
        dsimp only
        unfold separator
        split
        · exact .inr (.inl (getLast?_concat ..))
        · rw [append_nil]
          exact hs.ended
      · rw [if_neg hne] at hpt
        exact h.add call hpt (.inl rfl) (.inr ⟨hne, suffix_append _ _⟩)
    | none =>
      have hla := lines_append f.1 hl
      rw [lines_separator hf] at hla
      refine hok (h.add call hla (.inr hm) (.inl (getLast?_concat ..))) ?_
      rw [hla]
      exact mem_append_right _ (mem_singleton_self _)

end

/-- Lines stay in order, every line whose call succeeded is there, exactly once if it is new and no
failed write has left it behind, a line that is there is not written again, and the file ends with
a newline once something was written, or else with what a failed write has left. -/
theorem appends_safe (contents : Str) (calls : List (Faults × Str))
    (hp : ∀ call ∈ calls, PlainLine call.2 ∧ (leftover call).getLast? ≠ some '\r')
    (hr : contents.getLast? ≠ some '\r') :
    let (file, recorded) := appendAll contents calls
    lines contents <+: lines file ∧ (∀ line ∈ recorded, line ∈ lines file ∧
      (line ∉ lines contents → line ∉ calls.map leftover → (lines file).count line = 1)) ∧
      (∀ faults, ∀ line ∈ lines file, (appendLockedLine faults file line).1 = file) ∧
      (file = contents ∨ file.getLast? = some '\n' ∨
        ∃ call ∈ calls, leftover call ≠ [] ∧ leftover call <:+ file) := by
  have hg : Grown contents calls (appendAll contents calls) := by
    induction calls using reverseRecOn with
    | nil => exact ⟨⟨[], by simp [appendAll], nofun⟩, nofun, .inl rfl⟩
    | append_singleton calls call ih =>
      have hc := fun c hc => hp c (mem_append_left [call] hc)
      have hi := ih hc
      rw [appendAll, foldl_append]
      exact hi.next (hi.noReturn hr fun c hm => (hc c hm).2) (hp call (by simp)).1
  generalize appendAll contents calls = file at hg ⊢
  obtain ⟨added, ha, hk⟩ := hg.kept
  refine ⟨ha ▸ prefix_append _ _, fun l hl => ⟨hg.recorded l hl, fun hc hn => ?_⟩,
    fun fs l hl => ?_, hg.ended⟩
  · have hm := hg.recorded l hl
    rw [ha, mem_append, or_iff_right hc] at hm
    rw [ha, count_append, count_eq_zero.mpr hc, (hk l hm hn).1]
  · rw [appendLockedLine, if_pos hl]
    split_ifs <;> rfl

/-- The write of the first line fails behind its first character. -/
def failsOnce : List (Faults × Str) :=
  [(fun step => if step = .writeLine then some 1 else none, "bc"), (fun _ => none, "bc"),
    (fun _ => none, "bc")]

theorem appends_safe_twice : appendAll "a" failsOnce =
      ("a\nb\nbc\n".toList, ["bc".toList, "bc".toList]) ∧
    (lines "a\nb\nbc\n".toList).count "bc".toList = 1 := by
  have hp : PlainLine ['b', 'c'] := ⟨by decide, by decide⟩
  have h := appends_safe "a" failsOnce (by simp [failsOnce, leftover, hp]) (by decide)
  exact ⟨by decide, (h.2.1 "bc" (by decide)).2 (by decide) (by decide)⟩

/-- A line that is there without a newline stays without one. -/
theorem append_without_newline : appendAll "a" [(fun _ => none, "a")] =
    ("a".toList, ["a".toList]) := by
  decide

end RulesFile
