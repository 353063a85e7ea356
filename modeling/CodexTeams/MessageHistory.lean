import CodexTeams.OutputDeltas

/-! Appending to the message history, and trimming it to a soft cap when it is over the limit. -/
namespace MessageHistory

open List OutputDeltas

def newline : UInt8 := 10

/-- What `read_line` reads until the end of the file. -/
def readLines : List UInt8 → List (List UInt8)
  | [] => []
  | byte :: file =>
    if byte = newline then [byte] :: readLines file
    else match readLines file with
      | [] => [[byte]]
      | line :: lines => (byte :: line) :: lines

/-- The bytes to drop, from the lengths of all lines but the last. -/
def trimLoop (trimTarget : ℕ) : ℕ → ℕ → List ℕ → ℕ
  | _, dropBytes, [] => dropBytes
  | currentLen, dropBytes, length :: rest =>
    if trimTarget < currentLen then
      trimLoop trimTarget (currentLen - length) (dropBytes + length) rest
    else dropBytes

variable (softCap : ℕ → ℕ) (file : List UInt8)

/-- The file that is left, and whether all its lines could be read. -/
def enforceHistoryLimit : Option ℕ → List UInt8 × Bool
  | none | some 0 => (file, true)
  | some maxBytes =>
    let lines := readLines file
    if file.length ≤ maxBytes then (file, true)
    else if lines.all fromUtf8IsOk then
      match lines.getLast? with
      | none => (file, true)
      | some last =>
        let trimTarget := max (softCap maxBytes) last.length
        (file.drop (trimLoop trimTarget file.length 0 (lines.dropLast.map length)), true)
    else (file, false)

/-- What is done under the lock. -/
def appendEntry (maxBytes : Option ℕ) (file line : List UInt8) : List UInt8 × Bool :=
  enforceHistoryLimit softCap (file ++ line) maxBytes

def Terminated : Prop := ∀ byte ∈ file.getLast?, byte = newline

theorem flatten_readLines (x : List UInt8) : (readLines x).flatten = x := by
  induction x with
  | nil => rfl
  | cons b x ih =>
    rw [readLines]
    split
    · rw [flatten_cons, ih, singleton_append]
    · split <;> simp_all

theorem readLines_append (h : Terminated x) : readLines (x ++ y) = readLines x ++ readLines y := by
  induction x with
  | nil => rfl
  | cons b x ih =>
    have ih := ih (fun c hc => h c (by simp_all [getLast?_cons]))
    rw [cons_append, readLines, readLines, ih]
    split
    · rfl
    · next hb =>
      cases hx : readLines x with
      | nil =>
        have hx := flatten_readLines x
        simp_all [Terminated]
      | cons l ls => rfl

theorem readLines_line (h : newline ∉ x) : readLines (x ++ [newline]) = [x ++ [newline]] := by
  induction x with
  | nil => rfl
  | cons b x ih =>
    obtain ⟨hb, hx⟩ := not_or.mp (mt mem_cons.mpr h)
    rw [cons_append, readLines, if_neg (Ne.symm hb), ih hx]

theorem trimLoop_spec (ht : last.length ≤ t) (ls : List (List UInt8)) (d : ℕ) :
    ∃ a b, ls = a ++ b ∧ (b.flatten ++ last).length ≤ t ∧
      trimLoop t (ls.flatten ++ last).length d (ls.map length) = d + a.flatten.length := by
  induction ls generalizing d with
  | nil => exact ⟨[], [], rfl, ht, rfl⟩
  | cons l ls ih =>
    by_cases hc : t < (flatten (l :: ls) ++ last).length
    · obtain ⟨a, b, rfl, hb, ha⟩ := ih (d + l.length)
      refine ⟨l :: a, b, rfl, hb, ?_⟩
      rw [map_cons, trimLoop, if_pos hc, flatten_cons, flatten_cons, append_assoc, length_append,
        Nat.add_sub_cancel_left, ha, length_append, Nat.add_assoc]
    · exact ⟨[], _, rfl, Nat.le_of_not_lt hc, by rw [map_cons, trimLoop, if_neg hc]; rfl⟩

/-- The history and a new line: all of it within the limit, and otherwise its last lines, which are
within the limit if the new line is. A line that is not UTF-8 leaves it as it is. -/
theorem history_trimmed (softCap : ℕ → ℕ) (maxBytes : ℕ) (file entry line : List UInt8)
    (hpositive : 0 < maxBytes) (hsoft : softCap maxBytes ≤ maxBytes) (hfile : Terminated file)
    (hentry : newline ∉ entry) (hline : line = entry ++ [newline]) :
    let result := appendEntry softCap (some maxBytes) file line
    ((file ++ line).length ≤ maxBytes → result = (file ++ line, true)) ∧
    (maxBytes < (file ++ line).length →
      if (readLines (file ++ line)).all fromUtf8IsOk then
        ∃ dropped kept, readLines file = dropped ++ kept ∧ file = dropped.flatten ++ kept.flatten ∧
          result = (kept.flatten ++ line, true) ∧
          ((kept.flatten ++ line).length ≤ maxBytes ∨ maxBytes < line.length)
      else result = (file ++ line, false)) := by
  obtain ⟨m, rfl⟩ := Nat.exists_eq_add_one_of_ne_zero hpositive.ne'
  have hl : readLines (file ++ line) = readLines file ++ [line] := by
    rw [hline, readLines_append hfile, readLines_line hentry]
  obtain ⟨a, b, hf, hb, ha⟩ := trimLoop_spec (le_max_right (softCap (m + 1)) line.length)
    (readLines file) 0
  have hx := flatten_readLines file
  rw [hx, Nat.zero_add] at ha
  rw [hf, flatten_append] at hx
  simp only [appendEntry, enforceHistoryLimit, hl, getLast?_concat, dropLast_concat, ha]
  refine ⟨fun hn => if_pos hn, fun hn => ?_⟩
  rw [if_neg (Nat.not_le_of_lt hn)]
  split
  · have hd : (file ++ line).drop a.flatten.length = b.flatten ++ line := by
      rw [← hx, append_assoc, drop_left]
    rw [hd]
    exact ⟨a, b, hf, hx.symm, rfl, by omega⟩
  · rfl

theorem history_trimmed_to_new_line : let file := [97, newline]
    ∃ dropped kept, readLines file = dropped ++ kept ∧ file = dropped.flatten ++ kept.flatten ∧
      appendEntry id (some 2) file [98, newline] = (kept.flatten ++ [98, newline], true) ∧
      ((kept.flatten ++ [98, newline]).length ≤ 2 ∨ 2 < 2) := by
  have h := (history_trimmed id 2 [97, newline] [98] [98, newline] (by decide) le_rfl
    (fun _ h => by cases h; rfl) (by decide) rfl).2 (by decide)
  rwa [if_pos (by decide)] at h

def entryLine : List UInt8 :=
  "\x7b\"session_id\":\"s\",\"ts\":0,\"text\":\"b\"\x7d\n".toList.map fun c => c.toNat.toUInt8

/-- A line that is not UTF-8 cannot be read: the file stays over the limit. -/
theorem history_not_trimmed : appendEntry id (some 37) [255, newline] entryLine =
    ([255, newline] ++ entryLine, false) := by
  decide +kernel

end MessageHistory
