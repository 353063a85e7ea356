import CodexTeams.Coalesce
import CodexTeams.RustStr

/-! Tag blocks whose tags stand alone on a line, in streamed text. A line is kept back as long as it
may still be a tag. The segments do not depend on the chunks in which the text arrives. -/
namespace TaggedLines

open RustStr Coalesce List

variable {T : Type} [DecidableEq T]

structure TagSpec (T : Type) where
  openTag : Str
  closeTag : Str
  tag : T

inductive TaggedLineSegment (T : Type)
  | normal (text : Str)
  | tagStart (tag : T)
  | tagDelta (tag : T) (text : Str)
  | tagEnd (tag : T)
  deriving Repr

def segmentView : TextView (TaggedLineSegment T) (Option T) Char where
  view segment :=
    match segment with
    | .normal text => some (none, text)
    | .tagDelta tag text => some (some tag, text)
    | .tagStart _ => none
    | .tagEnd _ => none
  make tag text :=
    match tag with
    | none => .normal text
    | some tag => .tagDelta tag text
  view_make tag text := by cases tag <;> rfl
  make_view := by
    intro segment tag text h
    cases segment <;> cases h <;> rfl

/-- Neighbouring texts of the same kind are joined, and empty ones left out. -/
def segmentRules : Rules (TaggedLineSegment T) := segmentView.rules

def pushSegment (segments : List (TaggedLineSegment T)) (segment : TaggedLineSegment T) :
    List (TaggedLineSegment T) :=
  push segmentRules segments segment

structure TaggedLineParser (T : Type) where
  specs : List (TagSpec T)
  activeTag : Option T
  detectTag : Bool
  lineBuffer : Str

namespace TaggedLineParser

def new (specs : List (TagSpec T)) : TaggedLineParser T := ⟨specs, none, true, []⟩

variable (p : TaggedLineParser T) (slug : Str)

def isTagPrefix : Bool :=
  p.specs.any fun spec =>
    startsWith spec.openTag (trimEnd slug) || startsWith spec.closeTag (trimEnd slug)

def matchOpen : Option T :=
  (p.specs.find? fun spec => spec.openTag = slug).map (·.tag)

def matchClose : Option T :=
  (p.specs.find? fun spec => spec.closeTag = slug).map (·.tag)

def textSegment (text : Str) : TaggedLineSegment T :=
  segmentView.make p.activeTag text

def pushText (text : Str) (segments : List (TaggedLineSegment T)) : List (TaggedLineSegment T) :=
  pushSegment segments (p.textSegment text)

def withoutNewline (line : Str) : Str := if line.getLast? = some '\n' then line.dropLast else line

/-- The line in the buffer is over: it is a tag that is due, or text. -/
def finishLine : TaggedLineParser T × TaggedLineSegment T :=
  let slug := trimEnd (trimStart (withoutNewline p.lineBuffer))
  match p.matchOpen slug, p.activeTag with
  | some tag, none => (⟨p.specs, some tag, true, []⟩, .tagStart tag)
  | _, _ =>
    match p.matchClose slug with
    | some tag =>
      if p.activeTag = some tag then (⟨p.specs, none, true, []⟩, .tagEnd tag)
      else (⟨p.specs, p.activeTag, true, []⟩, p.textSegment p.lineBuffer)
    | none => (⟨p.specs, p.activeTag, true, []⟩, p.textSegment p.lineBuffer)

end TaggedLineParser

open TaggedLineParser

structure Parsing (T : Type) where
  parser : TaggedLineParser T
  run : Str
  segments : List (TaggedLineSegment T)

def Parsing.char (s : Parsing T) (ch : Char) : Parsing T :=
  let p := s.parser
  if p.detectTag then
    let segments := if s.run = [] then s.segments else p.pushText s.run s.segments
    let buffered : TaggedLineParser T := ⟨p.specs, p.activeTag, true, p.lineBuffer ++ [ch]⟩
    if ch = '\n' then ⟨buffered.finishLine.1, [], pushSegment segments buffered.finishLine.2⟩
    else if trimStart buffered.lineBuffer = [] ∨ p.isTagPrefix (trimStart buffered.lineBuffer) then
      ⟨buffered, [], segments⟩
    else ⟨⟨p.specs, p.activeTag, false, []⟩, [], p.pushText buffered.lineBuffer segments⟩
  else if ch = '\n' then
    ⟨⟨p.specs, p.activeTag, true, p.lineBuffer⟩, [], p.pushText (s.run ++ [ch]) s.segments⟩
  else ⟨p, s.run ++ [ch], s.segments⟩

def Parsing.flush (s : Parsing T) : List (TaggedLineSegment T) :=
  if s.run = [] then s.segments else s.parser.pushText s.run s.segments

def TaggedLineParser.parse (p : TaggedLineParser T) (delta : Str) :
    TaggedLineParser T × List (TaggedLineSegment T) :=
  let s := delta.foldl Parsing.char ⟨p, [], []⟩
  (s.parser, s.flush)

def TaggedLineParser.finish (p : TaggedLineParser T) :
    TaggedLineParser T × List (TaggedLineSegment T) :=
  let (active, segments) :=
    if p.lineBuffer = [] then (p.activeTag, [])
    else (p.finishLine.1.activeTag, pushSegment [] p.finishLine.2)
  (⟨p.specs, none, true, []⟩,
    match active with
    | some tag => pushSegment segments (.tagEnd tag)
    | none => segments)

section Chunks

section

variable (p : TaggedLineParser T)

def readChar (ch : Char) : TaggedLineParser T × List (TaggedLineSegment T) :=
  if p.detectTag then
    let buffered : TaggedLineParser T := ⟨p.specs, p.activeTag, true, p.lineBuffer ++ [ch]⟩
    if ch = '\n' then (buffered.finishLine.1, [buffered.finishLine.2])
    else if trimStart buffered.lineBuffer = [] ∨ p.isTagPrefix (trimStart buffered.lineBuffer) then
      (buffered, [])
    else (⟨p.specs, p.activeTag, false, []⟩, [p.textSegment buffered.lineBuffer])
  else (⟨p.specs, p.activeTag, decide (ch = '\n'), p.lineBuffer⟩, [p.textSegment [ch]])

def readText (p : TaggedLineParser T) : Str → TaggedLineParser T × List (TaggedLineSegment T)
  | [] => (p, [])
  | ch :: text =>
    ((readText (readChar p ch).1 text).1, (readChar p ch).2 ++ (readText (readChar p ch).1 text).2)

def readEnd : List (TaggedLineSegment T) :=
  if p.lineBuffer = [] then (p.activeTag.map .tagEnd).toList
  else p.finishLine.2 :: (p.finishLine.1.activeTag.map .tagEnd).toList

def readWhole (text : Str) : List (TaggedLineSegment T) :=
  (readText p text).2 ++ readEnd (readText p text).1

end

variable (p : TaggedLineParser T)

theorem readText_append (a b : Str) : readText p (a ++ b) = ((readText (readText p a).1 b).1,
      (readText p a).2 ++ (readText (readText p a).1 b).2) := by
  induction a generalizing p with
  | nil => rfl
  | cons ch a ih => simp [readText, ih]

theorem pushText_pushText (a : Str) (hb : b ≠ []) (segments : List (TaggedLineSegment T)) :
    p.pushText b (p.pushText a segments) = p.pushText (a ++ b) segments := by
  have hf : segmentRules.fuse (p.textSegment a) (p.textSegment b) =
      some (p.textSegment (a ++ b)) := by
    rw [segmentRules, textSegment, textSegment, TextView.fuse_make, if_pos rfl]
    rfl
  have hbl : segmentRules.blank (p.textSegment b) = false := by
    rw [segmentRules, textSegment]
    simpa using hb
  exact push_fused TextView.rules_lawful hf hbl segments

/-- A run is only open in a line that is no tag. -/
def Parsing.Settled (s : Parsing T) : Prop := s.run ≠ [] → s.parser.detectTag = false

theorem char_readChar {s : Parsing T} (h : s.Settled) (ch : Char) :
    (s.char ch).Settled ∧ (s.char ch).parser = (readChar s.parser ch).1 ∧
      (s.char ch).flush = (readChar s.parser ch).2.foldl pushSegment s.flush := by
  by_cases hd : s.parser.detectTag = true
  · have hr : s.run = [] := by
      by_contra hne
      rw [h hne] at hd
      cases hd
    have hf : s.flush = s.segments := if_pos hr
    simp only [Parsing.char, readChar, hd, if_true, hf]
    split
    · exact ⟨absurd rfl, rfl, rfl⟩
    · split
      · exact ⟨absurd rfl, rfl, rfl⟩
      · exact ⟨absurd rfl, rfl, rfl⟩
  · rw [Bool.not_eq_true] at hd
    -- the character is one more text, whether the run was empty or not
    have hp : pushSegment s.flush (s.parser.textSegment [ch]) =
        s.parser.pushText (s.run ++ [ch]) s.segments := by
      unfold Parsing.flush
      split
      · rename_i hr
        rw [hr]
        rfl
      · exact pushText_pushText s.parser s.run (cons_ne_nil ch []) s.segments
    simp only [Parsing.char, readChar, hd, Bool.false_eq_true, if_false, foldl_cons, hp]
    by_cases hn : ch = '\n'
    · rw [if_pos hn]
      exact ⟨absurd rfl, by simp [hn], rfl⟩
    · rw [if_neg hn]
      refine ⟨fun _ => hd, ?_, ?_⟩
      · simp only [hn, decide_false, ← hd]
      · exact if_neg (by simp)

theorem foldl_char {s : Parsing T} (h : s.Settled) (d : Str) :
    (d.foldl Parsing.char s).parser = (readText s.parser d).1 ∧ (d.foldl Parsing.char s).flush =
        (readText s.parser d).2.foldl pushSegment s.flush := by
  induction d generalizing s with
  | nil => exact ⟨rfl, rfl⟩
  | cons ch d ih =>
    obtain ⟨hs, hp, hf⟩ := char_readChar h ch
    obtain ⟨hp', hf'⟩ := ih hs
    rw [hp] at hp' hf'
    rw [foldl_cons, readText]
    refine ⟨hp', ?_⟩
    rw [hf', hf, foldl_append]

theorem parse_eq (d : Str) :
    p.parse d = ((readText p d).1, coalesce segmentRules (readText p d).2) := by
  have hs : (⟨p, [], []⟩ : Parsing T).Settled := absurd rfl
  obtain ⟨hp, hf⟩ := foldl_char hs d
  exact Prod.ext hp hf

theorem finish_eq : p.finish.2 = coalesce segmentRules (readEnd p) := by
  by_cases hl : p.lineBuffer = [] <;> simp only [finish, readEnd, hl]
  · cases p.activeTag <;> rfl
  · cases p.finishLine.1.activeTag <;> rfl

def outputs (p : TaggedLineParser T) : List Str → List (List (TaggedLineSegment T))
  | [] => [p.finish.2]
  | chunk :: chunks => (p.parse chunk).2 :: outputs (p.parse chunk).1 chunks

theorem outputs_eq (cs : List Str) :
    ∃ ps : List (List (TaggedLineSegment T)), outputs p cs = ps.map (coalesce segmentRules) ∧
      ps.flatten = readWhole p cs.flatten := by
  induction cs generalizing p with
  | nil => exact ⟨[readEnd p], by rw [outputs, finish_eq]; rfl, by simp [readWhole, readText]⟩
  | cons chunk cs ih =>
    obtain ⟨ps, ho, hf⟩ := ih (p.parse chunk).1
    refine ⟨(readText p chunk).2 :: ps, ?_, ?_⟩
    · rw [outputs, ho, parse_eq]
      rfl
    · rw [flatten_cons, hf, parse_eq]
      simp [readWhole, readText_append]

/-- The joined segments depend on the text only. -/
theorem coalesce_outputs (cs : List Str) : coalesce segmentRules (outputs p cs).flatten =
      coalesce segmentRules (readWhole p cs.flatten) := by
  obtain ⟨ps, ho, hf⟩ := outputs_eq p cs
  rw [ho, ← hf]
  exact coalesce_flatten TextView.rules_lawful ps

end Chunks

section LineRule

/-- The lines of a text that goes on from a line, with their newlines. -/
def linesFrom (line text : Str) : List Str :=
  (splitLines line text).1.map (· ++ ['\n']) ++
    if (splitLines line text).2 = [] then [] else [(splitLines line text).2]

section

variable (spec : TagSpec T)

def activeTag (active : Bool) : Option T :=
  if active then some spec.tag else none

/-- A line that is the tag that is due opens or closes a block; every other one is text. -/
def lineSegment (active : Bool) (line : Str) : Bool × TaggedLineSegment T :=
  match active with
  | false =>
    if trim line = spec.openTag then (true, .tagStart spec.tag) else (false, .normal line)
  | true =>
    if trim line = spec.closeTag then (false, .tagEnd spec.tag)
    else (true, .tagDelta spec.tag line)

def lineSegments : Bool → List Str → List (TaggedLineSegment T)
  | active, [] => ((activeTag spec active).map .tagEnd).toList
  | active, line :: lines =>
    (lineSegment spec active line).2 :: lineSegments (lineSegment spec active line).1 lines

end

/-- A segment, its text character by character. -/
def pieces : TaggedLineSegment T → List (TaggedLineSegment T)
  | .normal text => text.map fun ch => .normal [ch]
  | .tagDelta tag text => text.map fun ch => .tagDelta tag [ch]
  | segment => [segment]

def Bracketed : Option T → List (TaggedLineSegment T) → Prop
  | active, [] => active = none
  | none, .normal _ :: segments => Bracketed none segments
  | none, .tagStart tag :: segments => Bracketed (some tag) segments
  | some tag, .tagDelta tag' _ :: segments => tag' = tag ∧ Bracketed (some tag) segments
  | some tag, .tagEnd tag' :: segments => tag' = tag ∧ Bracketed none segments
  | _, _ :: _ => False

variable {spec : TagSpec T}

omit [DecidableEq T] in
theorem pieces_make (k : Option T) (x y : Str) : pieces (segmentView.make k (x ++ y)) =
    pieces (segmentView.make k x) ++ pieces (segmentView.make k y) := by
  cases k <;> simp [segmentView, pieces]

theorem pieces_coalesce (ss : List (TaggedLineSegment T)) :
    (coalesce segmentRules ss).flatMap pieces = ss.flatMap pieces := by
  apply flatMap_coalesce
  · intro x y xy h
    obtain ⟨k, t, m, rfl, rfl, rfl⟩ := TextView.fuse_eq_some h
    exact pieces_make k t m
  · intro x h
    cases x <;> simp_all [segmentRules, TextView.rules, segmentView, pieces]

theorem pieces_outputs (p : TaggedLineParser T) (cs : List Str) :
    (outputs p cs).flatten.flatMap pieces = (readWhole p cs.flatten).flatMap pieces := by
  obtain ⟨ps, ho, hf⟩ := outputs_eq p cs
  rw [ho, ← hf]
  clear ho hf
  induction ps with
  | nil => rfl
  | cons ss ps ih => simp [pieces_coalesce, ih]

theorem trim_withoutNewline (l : Str) : trim (withoutNewline l) = trim l := by
  rw [withoutNewline]
  split
  · next h =>
    obtain ⟨r, rfl⟩ := getLast?_eq_some_iff.mp h
    rw [dropLast_concat, trim_append_blank (w := ['\n']) (by decide)]
  · rfl

theorem finishLine_eq (spec : TagSpec T) (a d : Bool) (l : Str) :
    finishLine ⟨[spec], activeTag spec a, d, l⟩ =
      (⟨[spec], activeTag spec (lineSegment spec a l).1, true, []⟩, (lineSegment spec a l).2) := by
  have ht : trimEnd (trimStart (withoutNewline l)) = trim l := trim_withoutNewline l
  unfold finishLine lineSegment
  simp only [ht, matchOpen, matchClose]
  cases a <;> by_cases ho : spec.openTag = trim l <;> by_cases hc : spec.closeTag = trim l <;>
    simp [activeTag, textSegment, segmentView, ho, hc, eq_comm]

/-- The start of a line, less its blanks, starts the line, less its blanks. -/
theorem trim_starts (h : trimStart l ≠ []) (r : Str) : startsWith (trim (l ++ r)) (trim l) := by
  have hs : trimStart (l ++ r) = trimStart l ++ r := by
    rw [trimStart, dropWhile_append]
    exact if_neg fun he => h (isEmpty_iff.mp he)
  rw [startsWith, isPrefixOf_iff_prefix, trim, trim, hs]
  by_cases hr : trimEnd r = []
  · exact ⟨[], by rw [append_nil, trimEnd_append_blank (trimEnd_eq_nil.mp hr)]⟩
  · rw [trimEnd_append_of_ne _ hr]
    exact (List.rdropWhile_prefix ..).trans (prefix_append ..)

/-- No line that starts so is a tag. -/
def NoTag (spec : TagSpec T) (l : Str) : Prop :=
  ∀ r, trim (l ++ r) ≠ spec.openTag ∧ trim (l ++ r) ≠ spec.closeTag

omit [DecidableEq T] in
theorem NoTag.lineSegment (h : NoTag spec l) (a : Bool) (r : Str) : lineSegment spec a (l ++ r) =
    (a, segmentView.make (activeTag spec a) (l ++ r)) := by
  obtain ⟨ho, hc⟩ := h r
  cases a <;> simp [TaggedLines.lineSegment, ho, hc, activeTag, segmentView]

/-- The parser in the middle of a line: it keeps the line back, or it has given it out and the
line is no tag. -/
def Amid (spec : TagSpec T) (a : Bool) (l : Str) (p : TaggedLineParser T)
    (given : List (TaggedLineSegment T)) : Prop :=
  p = ⟨[spec], activeTag spec a, true, l⟩ ∧ given = [] ∨
    p = ⟨[spec], activeTag spec a, false, []⟩ ∧ l ≠ [] ∧ NoTag spec l ∧
      given = pieces (segmentView.make (activeTag spec a) l)

theorem Amid.readChar (h : Amid spec a l p g) (hc : c ≠ '\n') :
    Amid spec a (l ++ [c]) (readChar p c).1 (g ++ (readChar p c).2.flatMap pieces) := by
  unfold TaggedLines.readChar
  rcases h with ⟨rfl, rfl⟩ | ⟨rfl, hl, hn, rfl⟩
  · simp only [if_true, if_neg hc]
    split
    · exact .inl ⟨rfl, rfl⟩
    · rename_i ht
      simp only [not_or, isTagPrefix, any_cons, any_nil, Bool.or_false, Bool.or_eq_true] at ht
      refine .inr ⟨rfl, by simp, fun r => ?_, by simp [textSegment]⟩
      have hs := trim_starts ht.1 r
      constructor
      · intro he
        rw [he] at hs
        exact ht.2.1 hs
      · intro he
        rw [he] at hs
        exact ht.2.2 hs
  · refine .inr ⟨by simp [hc], by simp, fun r => ?_, ?_⟩
    · rw [append_assoc]
      exact hn _
    · simp [textSegment, pieces_make]

theorem Amid.readNewline (h : Amid spec a l p g) : (TaggedLines.readChar p '\n').1 =
        ⟨[spec], activeTag spec (lineSegment spec a (l ++ ['\n'])).1, true, []⟩ ∧
      g ++ (TaggedLines.readChar p '\n').2.flatMap pieces =
        pieces (lineSegment spec a (l ++ ['\n'])).2 := by
  unfold TaggedLines.readChar
  rcases h with ⟨rfl, rfl⟩ | ⟨rfl, hl, hn, rfl⟩
  · simp [finishLine_eq]
  · simp [hn.lineSegment, pieces_make, textSegment]

theorem Amid.readEnd (h : Amid spec a l p g) : g ++ (TaggedLines.readEnd p).flatMap pieces =
      (lineSegments spec a (if l = [] then [] else [l])).flatMap pieces := by
  unfold TaggedLines.readEnd
  rcases h with ⟨rfl, rfl⟩ | ⟨rfl, hl, hn, rfl⟩
  · by_cases hl : l = [] <;> simp [hl, lineSegments, finishLine_eq]
  · have hs := hn.lineSegment a []
    rw [append_nil] at hs
    simp [hl, lineSegments, hs]

theorem Amid.readWhole (h : Amid spec a l p g) (t : Str) :
    g ++ (TaggedLines.readWhole p t).flatMap pieces =
      (lineSegments spec a (linesFrom l t)).flatMap pieces := by
  induction t generalizing a l p g with
  | nil => exact h.readEnd
  | cons c t ih =>
    rw [TaggedLines.readWhole, readText]
    simp only [flatMap_append, ← List.append_assoc]
    by_cases hc : c = '\n'
    · subst hc
      obtain ⟨hp, hg⟩ := h.readNewline
      have hi := ih (g := []) (.inl ⟨hp, rfl⟩)
      rw [hg, List.append_assoc, ← flatMap_append, ← TaggedLines.readWhole]
      rw [nil_append] at hi
      rw [hi]
      simp [linesFrom, splitLines, lineSegments]
    · have hi := ih (h.readChar hc)
      rw [TaggedLines.readWhole, flatMap_append, ← List.append_assoc] at hi
      rw [hi]
      simp [linesFrom, splitLines, hc]

omit [DecidableEq T] in
theorem bracketed_make (k : Option T) (x : Str) (h : Bracketed k ss) :
    Bracketed k (pieces (segmentView.make k x) ++ ss) := by
  induction x with
  | nil => cases k <;> exact h
  | cons c x ih => cases k <;> simpa [pieces, segmentView, Bracketed] using ih

omit [DecidableEq T] in
theorem bracketed_lineSegments (a : Bool) (ls : List Str) :
    Bracketed (activeTag spec a) ((lineSegments spec a ls).flatMap pieces) := by
  induction ls generalizing a with
  | nil => cases a <;> simp [lineSegments, activeTag, pieces, Bracketed]
  | cons l ls ih =>
    rw [lineSegments]
    cases a <;> unfold lineSegment <;> dsimp only <;> split
    · exact ih true
    · exact bracketed_make none l (ih false)
    · exact ⟨rfl, ih false⟩
    · exact bracketed_make (some spec.tag) l (ih true)

/-- Whatever the chunks, the characters that are no tag lines come out once and in order, inside
or outside of a block as their line is, and blocks are closed. -/
theorem outputs_lines (spec : TagSpec T) (chunks : List Str) :
    (outputs (.new [spec]) chunks).flatten.flatMap pieces =
        (lineSegments spec false (linesFrom [] chunks.flatten)).flatMap pieces ∧
      Bracketed none ((outputs (.new [spec]) chunks).flatten.flatMap pieces) := by
  have hw := Amid.readWhole (.inl ⟨rfl, rfl⟩ : Amid spec false [] (.new [spec]) []) chunks.flatten
  rw [nil_append, ← pieces_outputs] at hw
  rw [hw]
  exact ⟨rfl, bracketed_lineSegments false _⟩

end LineRule

end TaggedLines
