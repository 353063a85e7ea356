import CodexTeams.RustStr

/-! Windows command lines: the quoting of arguments, and how they are split again. -/
namespace WindowsArgs

open List RustStr

/-- The rest of a quoted argument, behind `backslashes` that are not written yet. -/
def quoteFrom (backslashes : ℕ) : Str → Str
  | [] => replicate (backslashes * 2) '\\' ++ ['"']
  | ch :: arg =>
    if ch = '\\' then quoteFrom (backslashes + 1) arg
    else if ch = '"' then replicate (backslashes * 2 + 1) '\\' ++ '"' :: quoteFrom 0 arg
    else replicate backslashes '\\' ++ ch :: quoteFrom 0 arg

def quoteWindowsArg (arg : Str) : Str :=
  let needsQuotes := arg.isEmpty || arg.any ([' ', '\t', '\n', '\r', '"'].contains ·)
  if needsQuotes then '"' :: quoteFrom 0 arg else arg

def argvToCommandLine (argv : List Str) : Str := [' '].intercalate (argv.map quoteWindowsArg)

/-- The rules of `CommandLineToArgvW` behind the program's name: the argument that is being read, if
any, whether it is in quotes, and the backslashes read last. -/
def splitArgs : Option Str → Bool → ℕ → Str → List Str
  | arg, _, n, [] => (arg.map (· ++ replicate n '\\')).toList
  | arg, quoted, n, c :: line =>
    if c = '\\' then splitArgs (some (arg.getD [])) quoted (n + 1) line
    else if c = '"' then
      let arg := arg.getD [] ++ replicate (n / 2) '\\'
      if n % 2 = 0 then splitArgs (some arg) (!quoted) 0 line
      else splitArgs (some (arg ++ ['"'])) quoted 0 line
    else if (c = ' ' ∨ c = '\t') ∧ quoted = false then
      (arg.map (· ++ replicate n '\\')).toList ++ splitArgs none false 0 line
    else splitArgs (some (arg.getD [] ++ replicate n '\\' ++ [c])) quoted 0 line

theorem splitArgs_backslashes (a : Str) (q : Bool) (n k : ℕ) (s : Str) :
    splitArgs (some a) q n (replicate k '\\' ++ s) = splitArgs (some a) q (n + k) s := by
  induction k generalizing n with
  | zero => rfl
  | succ k ih =>
    rw [replicate_succ, cons_append, splitArgs, if_pos rfl, Option.getD_some, ih]
    congr 1
    omega

theorem splitArgs_quoteFrom (a : Str) (n : ℕ) (arg s : Str) :
    splitArgs (some a) true 0 (quoteFrom n arg ++ s) =
      splitArgs (some (a ++ replicate n '\\' ++ arg)) false 0 s := by
  induction arg generalizing a n with
  | nil => simp [quoteFrom, splitArgs_backslashes, splitArgs]
  | cons c arg ih =>
    rw [quoteFrom]
    split
    · next hc => simp [ih, replicate_succ', hc]
    · next hb =>
      split
      · next hc =>
        have hn : (n * 2 + 1) / 2 = n := by omega
        simp [splitArgs_backslashes, splitArgs, ih, hc, hn]
      · next hq => simp [splitArgs_backslashes, splitArgs, ih, hb, hq]

/-- An argument without blanks or quotes is read up to the backslashes at its end. -/
theorem splitArgs_plain (h : ∀ c ∈ arg, c ≠ ' ' ∧ c ≠ '\t' ∧ c ≠ '"') (a : Str) (n : ℕ) :
    ∃ b k, b ++ replicate k '\\' = a ++ replicate n '\\' ++ arg ∧
      ∀ s, splitArgs (some a) false n (arg ++ s) = splitArgs (some b) false k s := by
  induction arg generalizing a n with
  | nil => exact ⟨a, n, (append_nil _).symm, fun _ => rfl⟩
  | cons c arg ih =>
    obtain ⟨hp, h⟩ := forall_mem_cons.mp h
    by_cases hc : c = '\\'
    · obtain ⟨b, k, hb, hs⟩ := ih h a (n + 1)
      refine ⟨b, k, ?_, fun s => ?_⟩
      · rw [hb, replicate_succ', hc]
        simp
      · rw [cons_append, splitArgs, if_pos hc, Option.getD_some, hs]
    · obtain ⟨b, k, hb, hs⟩ := ih h (a ++ replicate n '\\' ++ [c]) 0
      refine ⟨b, k, by simpa using hb, fun s => ?_⟩
      rw [← hs]
      simp [splitArgs, hc, hp]

theorem splitArgs_quoteWindowsArg (arg : Str) : ∃ b k, b ++ replicate k '\\' = arg ∧
    ∀ s, splitArgs none false 0 (quoteWindowsArg arg ++ s) = splitArgs (some b) false k s := by
  rw [quoteWindowsArg]
  split
  · refine ⟨arg, 0, append_nil _, fun s => ?_⟩
    rw [cons_append, splitArgs]
    exact splitArgs_quoteFrom [] 0 arg s
  · next h =>
    have hp : ∀ c ∈ arg, c ≠ ' ' ∧ c ≠ '\t' ∧ c ≠ '"' := by simp_all
    obtain ⟨b, k, hb, hs⟩ := splitArgs_plain hp [] 0
    refine ⟨b, k, hb, fun s => ?_⟩
    cases arg with
    | nil => cases h rfl
    | cons c arg =>
      rw [← hs]
      simp [splitArgs, hp c]

/-- Splitting the command line of a list of arguments gives the list. -/
theorem splitArgs_argvToCommandLine (argv : List Str) :
    splitArgs none false 0 (argvToCommandLine argv) = argv := by
  induction argv with
  | nil => rfl
  | cons arg argv ih =>
    obtain ⟨b, k, hb, hs⟩ := splitArgs_quoteWindowsArg arg
    cases argv with
    | nil => simpa [argvToCommandLine, splitArgs, hb] using hs []
    | cons next argv =>
      rw [argvToCommandLine, map_cons, map_cons, intercalate_cons_cons, append_assoc, hs]
      simpa [splitArgs, hb, argvToCommandLine] using ih

end WindowsArgs
