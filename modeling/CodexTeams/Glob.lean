import Mathlib.Data.List.Infix

/-! Globs, read once from left to right. Alternatives are multiplied out, so that what is left to
match is a list of sequences of atoms. -/
namespace Glob

open List

inductive Atom
  | literal (c : Char)
  | any
  | zeroOrMore
  | cls (negated : Bool) (ranges : List (Char × Char))
  deriving DecidableEq, Repr

variable (variants : Char → List Char)

/-- The characters that are the same up to case are given by the variants of each. -/
def Atom.matchesChar : Atom → Char → Bool
  | .literal l, c => (variants c).contains l
  | .any, _ => true
  | .zeroOrMore, _ => false
  | .cls negated ranges, c =>
    (ranges.any fun range => (variants c).any fun v => range.1 ≤ v && v ≤ range.2) != negated

def matchAtoms : List Atom → List Char → Bool
  | [], text => text.isEmpty
  | .zeroOrMore :: atoms, text => text.tails.any (matchAtoms atoms)
  | _ :: _, [] => false
  | atom :: atoms, c :: text => atom.matchesChar variants c && matchAtoms atoms text

/-- What a glob is multiplied out to: it matches what one of the sequences matches. -/
abbrev Expansion := List (List Atom)

variable (expansion : Expansion) (text : List Char)

def Expansion.matchesText : Bool :=
  expansion.any fun atoms => matchAtoms variants atoms text

def product (first second : Expansion) : Expansion :=
  first.flatMap fun atoms => second.map (atoms ++ ·)

/-- The alternatives read so far between two braces, and the one that is being read. -/
structure Frame where
  branches : List Expansion
  current : Expansion
  deriving Repr

def Frame.empty : Frame := ⟨[], [[]]⟩

def Frame.close (frame : Frame) : Expansion :=
  match ((frame.branches ++ [frame.current]).filter (· ≠ [[]])).flatten with
  | [] => [[]]
  | alternatives => alternatives

def Frame.push (frame : Frame) (more : Expansion) : Frame :=
  { frame with current := product frame.current more }

inductive Mode
  | normal
  | escaped
  | classStart
  | classFirst (negated : Bool)
  | inClass (negated : Bool) (ranges : List (Char × Char)) (inRange : Bool)
  deriving Repr

/-- The frames from the innermost to the whole glob. -/
structure State where
  mode : Mode
  frames : List Frame
  deriving Repr

def State.start : State := ⟨.normal, [.empty]⟩

def pushTop (more : Expansion) : List Frame → List Frame
  | [] => []
  | frame :: outer => frame.push more :: outer

def endRange (ranges : List (Char × Char)) (c : Char) : Option (List (Char × Char)) :=
  match ranges.getLast? with
  | none => none
  | some last => if last.1 ≤ c then some (ranges.dropLast ++ [(last.1, c)]) else none

def stepNormal (frames : List Frame) (c : Char) : Option State :=
  if c = '?' then some ⟨.normal, pushTop [[.any]] frames⟩
  else if c = '*' then some ⟨.normal, pushTop [[.zeroOrMore]] frames⟩
  else if c = '[' then some ⟨.classStart, frames⟩
  else if c = '\\' then some ⟨.escaped, frames⟩
  else if c = '{' then some ⟨.normal, .empty :: frames⟩
  else if c = '}' then
    match frames with
    | frame :: outer :: rest => some ⟨.normal, outer.push frame.close :: rest⟩
    | _ => none
  else if c = ',' then
    match frames with
    | frame :: outer :: rest =>
      some ⟨.normal, ⟨frame.branches ++ [frame.current], [[]]⟩ :: outer :: rest⟩
    | _ => some ⟨.normal, pushTop [[.literal c]] frames⟩
  else some ⟨.normal, pushTop [[.literal c]] frames⟩

def stepClass (negated : Bool) (ranges : List (Char × Char)) (inRange : Bool)
    (frames : List Frame) (c : Char) : Option State :=
  if c = ']' then
    some ⟨.normal, pushTop [[.cls negated (if inRange then ranges ++ [('-', '-')] else ranges)]]
      frames⟩
  else if inRange then
    (endRange ranges c).map fun ended => ⟨.inClass negated ended false, frames⟩
  else if c = '-' then some ⟨.inClass negated ranges true, frames⟩
  else some ⟨.inClass negated (ranges ++ [(c, c)]) false, frames⟩

def step (s : State) (c : Char) : Option State :=
  match s.mode with
  | .normal => stepNormal s.frames c
  | .escaped => some ⟨.normal, pushTop [[.literal c]] s.frames⟩
  | .classStart =>
    if c = '!' ∨ c = '^' then some ⟨.classFirst true, s.frames⟩
    else some ⟨.inClass false [(c, c)] false, s.frames⟩
  | .classFirst negated => some ⟨.inClass negated [(c, c)] false, s.frames⟩
  | .inClass negated ranges inRange => stepClass negated ranges inRange s.frames c

def finish (s : State) : Option Expansion :=
  match s.mode, s.frames with
  | .normal, [frame] => some frame.current
  | _, _ => none

def run : State → List Char → Option State
  | s, [] => some s
  | s, c :: text => (step s c).bind fun next => run next text

variable (glob : List Char)

def compile : Option Expansion := (run .start glob).bind finish

section Matching

variable (vs : Char → List Char)

theorem matchAtoms_cons_of_ne (h : a ≠ .zeroOrMore) (ats : List Atom) (t : List Char) :
    matchAtoms vs (a :: ats) t = true ↔
      ∃ c r, t = c :: r ∧ a.matchesChar vs c = true ∧ matchAtoms vs ats r = true := by
  cases t with
  | nil => cases a <;> simp [matchAtoms] at h ⊢
  | cons c r =>
    cases a with
    | zeroOrMore => exact absurd rfl h
    | literal | any | cls => simp [matchAtoms]

theorem matchAtoms_zeroOrMore (ats : List Atom) (t : List Char) :
    matchAtoms vs (.zeroOrMore :: ats) t = true ↔
      ∃ s r, t = s ++ r ∧ matchAtoms vs ats r = true := by
  simp only [matchAtoms, any_eq_true, mem_tails]
  constructor
  · rintro ⟨r, ⟨s, rfl⟩, hr⟩
    exact ⟨s, r, rfl, hr⟩
  · rintro ⟨s, r, rfl, hr⟩
    exact ⟨r, ⟨s, rfl⟩, hr⟩

theorem matchAtoms_append (first sc : List Atom) (t : List Char) :
    matchAtoms vs (first ++ sc) t = true ↔
      ∃ f b, t = f ++ b ∧ matchAtoms vs first f = true ∧ matchAtoms vs sc b = true := by
  induction first generalizing t with
  | nil => simp [matchAtoms]
  | cons a first ih =>
    rw [cons_append]
    by_cases hs : a = .zeroOrMore
    · subst hs
      simp only [matchAtoms_zeroOrMore, ih]
      constructor
      · rintro ⟨s, _, rfl, f, b, rfl, hf, hb⟩
        exact ⟨s ++ f, b, by simp, ⟨s, f, rfl, hf⟩, hb⟩
      · rintro ⟨_, b, rfl, ⟨s, f, rfl, hf⟩, hb⟩
        exact ⟨s, f ++ b, by simp, f, b, rfl, hf, hb⟩
    · simp only [matchAtoms_cons_of_ne vs hs, ih]
      constructor
      · rintro ⟨c, _, rfl, hc, f, b, rfl, hf, hb⟩
        exact ⟨c :: f, b, rfl, ⟨c, f, rfl, hc, hf⟩, hb⟩
      · rintro ⟨_, b, rfl, ⟨c, f, rfl, hc, hf⟩, hb⟩
        exact ⟨c, f ++ b, rfl, hc, f, b, rfl, hf, hb⟩

theorem matchesText_product (first sc : Expansion) (t : List Char) :
    (product first sc).matchesText vs t = true ↔ ∃ f b, t = f ++ b ∧ first.matchesText vs f = true ∧
        sc.matchesText vs b = true := by
  simp only [Expansion.matchesText, product, any_eq_true, mem_flatMap, mem_map]
  constructor
  · rintro ⟨_, ⟨ats, ha, ats', ha', rfl⟩, hm⟩
    obtain ⟨f, b, rfl, hf, hb⟩ := (matchAtoms_append vs _ _ _).mp hm
    exact ⟨f, b, rfl, ⟨ats, ha, hf⟩, ats', ha', hb⟩
  · rintro ⟨f, b, rfl, ⟨ats, ha, hf⟩, ats', ha', hb⟩
    exact ⟨ats ++ ats', ⟨ats, ha, ats', ha', rfl⟩,
      (matchAtoms_append vs _ _ _).mpr ⟨f, b, rfl, hf, hb⟩⟩

end Matching

@[simp] theorem product_nil_right : product expansion [[]] = expansion := by
  simp [product]

theorem product_assoc (a b c : Expansion) : product (product a b) c = product a (product b c) := by
  simp only [product, flatMap_assoc, map_flatMap, flatMap_map, map_map]
  congr 1
  funext atoms
  congr 1
  funext atoms'
  congr 1
  funext atoms''
  exact append_assoc _ _ _

variable (before : Expansion)

/-- The frames as they are when the glob has begun with something else. -/
def underFrames : List Frame → List Frame
  | [] => []
  | [frame] => [⟨frame.branches, product before frame.current⟩]
  | frame :: outer :: rest => frame :: underFrames (outer :: rest)

def State.under (s : State) : State := ⟨s.mode, underFrames before s.frames⟩

theorem pushTop_underFrames (b m : Expansion) (fs : List Frame) :
    pushTop m (underFrames b fs) = underFrames b (pushTop m fs) := by
  cases fs with
  | nil => rfl
  | cons f o =>
    cases o with
    | nil => simp [underFrames, pushTop, Frame.push, product_assoc]
    | cons o r => rfl

variable (b : Expansion)

theorem step_under (hf : s.frames ≠ []) (c : Char) :
    step (s.under b) c = (step s c).map (State.under b) := by
  obtain ⟨m, fs⟩ := s
  cases m with
  | escaped => simp [step, State.under, pushTop_underFrames]
  | classStart =>
    simp only [step, State.under]
    split <;> rfl
  | classFirst n => rfl
  | inClass n ranges ir =>
    simp only [step, State.under, stepClass, pushTop_underFrames]
    split
    · rfl
    split
    · cases endRange ranges c <;> rfl
    split <;> rfl
  | normal =>
    simp only [step, State.under, stepNormal, pushTop_underFrames]
    split
    · rfl
    split
    · rfl
    split
    · rfl
    split
    · rfl
    split
    · cases fs with
      | nil => exact absurd rfl hf
      | cons frame o => rfl
    split
    · match fs with
      | [] => rfl
      | [frame] => rfl
      | [frame, o] =>
        simp [underFrames, State.under, Frame.push, product_assoc]
      | frame :: o :: next :: r => rfl
    split
    · match fs with
      | [] => rfl
      | [frame] => rfl
      | [frame, o] => rfl
      | frame :: o :: next :: r => rfl
    · rfl

def Grounded : List Frame → Prop
  | [] => False
  | [frame] => frame.branches = []
  | _ :: outer :: rest => Grounded (outer :: rest)

theorem Grounded.ne_nil (h : Grounded fs) : fs ≠ [] := by
  rintro rfl
  exact h

theorem Grounded.pushTop (h : Grounded fs) (m : Expansion) : Grounded (Glob.pushTop m fs) := by
  match fs with
  | [] => exact h
  | [frame] => exact h
  | frame :: o :: r => exact h

theorem Grounded.open (h : Grounded fs) : Grounded (Frame.empty :: fs) := by
  match fs with
  | [] => exact absurd h id
  | frame :: o => exact h

theorem grounded_stepNormal (hf : Grounded fs) (h : stepNormal fs c = some nx) :
    Grounded nx.frames := by
  simp only [stepNormal] at h
  split at h
  · cases h
    exact hf.pushTop _
  split at h
  · cases h
    exact hf.pushTop _
  split at h
  · cases h
    exact hf
  split at h
  · cases h
    exact hf
  split at h
  · cases h
    exact hf.open
  split at h
  · match fs with
    | [] => cases h
    | [frame] => cases h
    | [frame, o] =>
      cases h
      exact hf
    | frame :: o :: nx :: r =>
      cases h
      exact hf
  split at h
  · match fs with
    | [] =>
      cases h
      exact hf
    | [frame] =>
      cases h
      exact hf
    | frame :: o :: r =>
      cases h
      exact hf
  · cases h
    exact hf.pushTop _

theorem grounded_step (hf : Grounded s.frames) (h : step s c = some nx) : Grounded nx.frames := by
  obtain ⟨m, fs⟩ := s
  cases m with
  | normal => exact grounded_stepNormal hf h
  | escaped =>
    cases h
    exact hf.pushTop _
  | classStart =>
    simp only [step] at h
    split at h <;> cases h <;> exact hf
  | classFirst n =>
    cases h
    exact hf
  | inClass n ranges ir =>
    simp only [step, stepClass] at h
    split at h
    · cases h
      exact hf.pushTop _
    split at h
    · obtain ⟨ended, -, rfl⟩ := Option.map_eq_some_iff.mp h
      exact hf
    split at h <;> cases h <;> exact hf

theorem grounded_run (hf : Grounded s.frames) (h : run s t = some l) : Grounded l.frames := by
  induction t generalizing s with
  | nil =>
    cases h
    exact hf
  | cons c t ih =>
    obtain ⟨next, hs, hr⟩ := Option.bind_eq_some_iff.mp h
    exact ih (grounded_step hf hs) hr

theorem run_append (s : State) (t more : List Char) :
    run s (t ++ more) = (run s t).bind fun next => run next more := by
  induction t generalizing s with
  | nil => rfl
  | cons c t ih =>
    rw [cons_append, run, run, Option.bind_assoc]
    congr 1
    funext next
    exact ih next

theorem run_under (hf : Grounded s.frames) (t : List Char) :
    run (s.under b) t = (run s t).map (State.under b) := by
  induction t generalizing s with
  | nil => rfl
  | cons c t ih =>
    rw [run, run, step_under b hf.ne_nil]
    cases hs : step s c with
    | none => rfl
    | some next => exact ih (grounded_step hf hs)

theorem finish_under (s : State) : finish (s.under b) = (finish s).map (product b) := by
  obtain ⟨m, fs⟩ := s
  cases m with
  | normal =>
    match fs with
    | [] => rfl
    | [frame] => rfl
    | [frame, o] => rfl
    | frame :: o :: next :: r => rfl
  | escaped | classStart | classFirst | inClass => rfl

theorem grounded_start : Grounded State.start.frames := rfl

theorem run_of_compile (h : compile g = some e) : run .start g = some (State.start.under e) := by
  obtain ⟨s, hr, hf⟩ := Option.bind_eq_some_iff.mp h
  have hg : Grounded s.frames := grounded_run grounded_start hr
  obtain ⟨m, fs⟩ := s
  cases m with
  | normal =>
    match fs with
    | [] => cases hf
    | [⟨bs, c⟩] =>
      cases hf
      have hb : bs = [] := hg
      rw [hr, hb, State.under, State.start, underFrames, Frame.empty, product_nil_right]
    | frame :: o :: r => cases hf
  | escaped | classStart | classFirst | inClass => cases hf

theorem compile_append (h : compile g = some e) (m : List Char) :
    compile (g ++ m) = (compile m).map (product e) := by
  rw [compile, run_append, run_of_compile h, Option.bind_some, run_under e grounded_start]
  rw [Option.bind_map, compile, Option.map_bind]
  congr 1
  funext s
  exact finish_under e s

def plainChar (c : Char) : Bool := c ∉ ['?', '*', '[', '\\', '{', '}']

def PlainGlob : Prop := ∀ c ∈ text, plainChar c = true

theorem step_plain (h : plainChar c = true) (e : Expansion) :
    step (State.start.under e) c = some (State.start.under (product e [[.literal c]])) := by
  have hc : c ∉ ['?', '*', '[', '\\', '{', '}'] := of_decide_eq_true h
  simp only [mem_cons, not_or] at hc
  obtain ⟨h1, h2, h3, h4, h5, h6⟩ := hc
  simp only [step, State.under, State.start, underFrames, Frame.empty, stepNormal, h1, h2, h3, h4,
    h5, h6, if_false]
  split <;> simp [pushTop, Frame.push]

theorem run_plain (h : PlainGlob t) (ats : List Atom) :
    run (State.start.under [ats]) t = some (State.start.under [ats ++ t.map .literal]) := by
  induction t generalizing ats with
  | nil => simp [run]
  | cons c t ih =>
    have hp : product [ats] [[Atom.literal c]] = [ats ++ [.literal c]] := rfl
    rw [run, step_plain (h c mem_cons_self), Option.bind_some, hp,
      ih fun o ho => h o (mem_cons_of_mem c ho), append_assoc]
    rfl

theorem compile_plain (h : PlainGlob t) : compile t = some [t.map .literal] := by
  have hr := run_plain h []
  have hs : State.start.under [[]] = State.start := rfl
  have hf : finish State.start = some [[]] := rfl
  rw [hs, nil_append] at hr
  rw [compile, hr, Option.bind_some, finish_under, hf, Option.map_some, product_nil_right]

/-- The text is a glob, and matches something only if it is not empty. -/
def NonEmptyGlob : Prop :=
  ∃ expansion, compile glob = some expansion ∧ expansion.matchesText variants [] = false

/-- `?*.d` takes in everything that ends in `.d` after a glob that does not match nothing. -/
theorem matches_subdomains (hfr : NonEmptyGlob vrs f) (hn : compile (f ++ '.' :: d) = some n)
    (hw : compile ('?' :: '*' :: '.' :: d) = some w) (hm : n.matchesText vrs t = true) :
    w.matchesText vrs t = true := by
  obtain ⟨b, hb, he⟩ := hfr
  have ha : compile ['?', '*'] = some [[.any, .zeroOrMore]] := rfl
  rw [compile_append hb] at hn
  obtain ⟨rest, hr, rfl⟩ := Option.map_eq_some_iff.mp hn
  have hsm : w = product [[.any, .zeroOrMore]] rest := by
    have hs := compile_append ha ('.' :: d)
    rw [hr] at hs
    exact Option.some.inj (hw.symm.trans hs)
  obtain ⟨first, sc, rfl, hf, hsc⟩ := (matchesText_product vrs _ _ _).mp hm
  rw [hsm]
  apply (matchesText_product vrs _ _ _).mpr
  refine ⟨first, sc, rfl, ?_, hsc⟩
  cases first with
  | nil =>
    rw [he] at hf
    cases hf
  | cons c first => simp [Expansion.matchesText, matchAtoms, Atom.matchesChar]

end Glob
