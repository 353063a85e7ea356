import CodexTeams.PatternSearch
import CodexTeams.Utf8

/-! Hiding inline tags in streamed text. The parser keeps back the longest end of its input that may
still become a tag; what it gives out is what one scan of the whole text finds. -/
namespace HiddenTags

open RustStr PatternSearch Utf8 List

variable {T : Type}

structure ExtractedInlineTag (T : Type) where
  tag : T
  content : Str
  deriving Repr

/-- The parser refuses empty delimiters. -/
structure InlineTagSpec (T : Type) where
  tag : T
  openTag : Str
  closeTag : Str
  openTag_ne : openTag ≠ []
  closeTag_ne : closeTag ≠ []

/-- A tag that was opened, with the part of its content seen so far. -/
structure ActiveTag (T : Type) where
  spec : InlineTagSpec T
  content : Str

structure StreamTextChunk (E : Type) where
  visibleText : Str
  extracted : List E
  deriving Repr

def StreamTextChunk.empty {E : Type} : StreamTextChunk E := ⟨[], []⟩

def StreamTextChunk.append {E : Type} (out more : StreamTextChunk E) : StreamTextChunk E :=
  ⟨out.visibleText ++ more.visibleText, out.extracted ++ more.extracted⟩

structure InlineHiddenTagParser (T : Type) where
  specs : List (InlineTagSpec T)
  specs_ne : specs ≠ []
  pending : Str
  active : Option (ActiveTag T)

namespace InlineHiddenTagParser

def new (specs : List (InlineTagSpec T)) (h : specs ≠ []) : InlineHiddenTagParser T :=
  ⟨specs, h, [], none⟩

/-- The earlier opening of two, the longer one at the same place, the first one of two equal. -/
def betterOpen (pending : Str) (best : Option (ℕ × InlineTagSpec T)) (spec : InlineTagSpec T) :
    Option (ℕ × InlineTagSpec T) :=
  match find spec.openTag pending, best with
  | none, best => best
  | some pos, none => some (pos, spec)
  | some pos, some (bestPos, bestSpec) =>
    if pos < bestPos ∨ pos = bestPos ∧ byteLen bestSpec.openTag < byteLen spec.openTag then
      some (pos, spec)
    else some (bestPos, bestSpec)

variable (p : InlineHiddenTagParser T)

def findNextOpen : Option (ℕ × InlineTagSpec T) :=
  p.specs.foldl (betterOpen p.pending) none

def maxOpenPrefixSuffixLen : ℕ :=
  p.specs.foldl (fun longest spec => max longest (overlap p.pending spec.openTag)) 0

/-- The loop of `push_str`. Every turn that goes on takes a delimiter off the pending text. -/
def pushLoop : ℕ → InlineHiddenTagParser T → StreamTextChunk (ExtractedInlineTag T) →
    InlineHiddenTagParser T × StreamTextChunk (ExtractedInlineTag T)
  | 0, p, out => (p, out)
  | fuel + 1, p, out =>
    match p.active with
    | some active =>
      match find active.spec.closeTag p.pending with
      | some closeIdx =>
        pushLoop fuel
          ⟨p.specs, p.specs_ne, p.pending.drop (closeIdx + active.spec.closeTag.length), none⟩
          ⟨out.visibleText,
            out.extracted ++ [⟨active.spec.tag, active.content ++ p.pending.take closeIdx⟩]⟩
      | none =>
        let take := p.pending.length - overlap p.pending active.spec.closeTag
        (⟨p.specs, p.specs_ne, p.pending.drop take,
          some ⟨active.spec, active.content ++ p.pending.take take⟩⟩, out)
    | none =>
      match p.findNextOpen with
      | some (openIdx, spec) =>
        pushLoop fuel
          ⟨p.specs, p.specs_ne, p.pending.drop (openIdx + spec.openTag.length), some ⟨spec, []⟩⟩
          ⟨out.visibleText ++ p.pending.take openIdx, out.extracted⟩
      | none =>
        let take := p.pending.length - p.maxOpenPrefixSuffixLen
        (⟨p.specs, p.specs_ne, p.pending.drop take, none⟩,
          ⟨out.visibleText ++ p.pending.take take, out.extracted⟩)

def pushStr (chunk : Str) : InlineHiddenTagParser T × StreamTextChunk (ExtractedInlineTag T) :=
  pushLoop ((p.pending ++ chunk).length + 1) ⟨p.specs, p.specs_ne, p.pending ++ chunk, p.active⟩
    .empty

def finish : InlineHiddenTagParser T × StreamTextChunk (ExtractedInlineTag T) :=
  match p.active with
  | some active =>
    (⟨p.specs, p.specs_ne, [], none⟩, ⟨[], [⟨active.spec.tag, active.content ++ p.pending⟩]⟩)
  | none => (⟨p.specs, p.specs_ne, [], none⟩, ⟨p.pending, []⟩)

end InlineHiddenTagParser

theorem length_after_find {t : Str} (hp : pat ≠ []) (h : find pat t = some i) :
    (t.drop (i + pat.length)).length < t.length := by
  have hs := congrArg length (find_split h)
  have hps := length_pos_iff.mpr hp
  simp only [length_append] at hs
  omega

variable (spec : InlineTagSpec T)

/-- One scan of a text, from left to right, without nesting. -/
def scan (text : Str) : StreamTextChunk (ExtractedInlineTag T) :=
  match _hopen : find spec.openTag text with
  | none => ⟨text, []⟩
  | some openIdx =>
    let body := text.drop (openIdx + spec.openTag.length)
    match find spec.closeTag body with
    | none => ⟨text.take openIdx, [⟨spec.tag, body⟩]⟩
    | some closeIdx =>
      let rest := scan (body.drop (closeIdx + spec.closeTag.length))
      ⟨text.take openIdx ++ rest.visibleText, ⟨spec.tag, body.take closeIdx⟩ :: rest.extracted⟩
termination_by text.length
decreasing_by
  have hlt := length_after_find spec.openTag_ne _hopen
  rw [List.length_drop]
  omega

/-- The scan inside a tag whose content up to here is known. -/
def scanTag (content text : Str) : StreamTextChunk (ExtractedInlineTag T) :=
  match find spec.closeTag text with
  | none => ⟨[], [⟨spec.tag, content ++ text⟩]⟩
  | some closeIdx =>
    StreamTextChunk.append ⟨[], [⟨spec.tag, content ++ text.take closeIdx⟩]⟩
      (scan spec (text.drop (closeIdx + spec.closeTag.length)))

theorem scan_of_none (h : find s.openTag t = none) : scan s t = ⟨t, []⟩ := by
  rw [scan]
  split
  · rfl
  · rename_i hs
    rw [h] at hs
    cases hs

theorem scan_of_some (h : find s.openTag t = some oi) :
    scan s t = StreamTextChunk.append ⟨t.take oi, []⟩
      (scanTag s [] (t.drop (oi + s.openTag.length))) := by
  rw [scan, scanTag]
  split
  · rename_i hn
    rw [h] at hn
    cases hn
  · rename_i idx hs
    rw [h] at hs
    cases hs
    simp only
    split <;> simp [StreamTextChunk.append]

section OneTag

open InlineHiddenTagParser

variable {E : Type}

theorem append_assoc (a b c : StreamTextChunk E) :
    (a.append b).append c = a.append (b.append c) := by
  simp [StreamTextChunk.append]

variable (spec : InlineTagSpec T) (active : Option (ActiveTag T))

def scanFrom (text : Str) : StreamTextChunk (ExtractedInlineTag T) :=
  match active with
  | none => scan spec text
  | some active => scanTag spec active.content text

/-- A parser for one kind of tag. -/
structure OneTag (spec : InlineTagSpec T) (p : InlineHiddenTagParser T) : Prop where
  specs : p.specs = [spec]
  active : ∀ active ∈ p.active, active.spec = spec

theorem OneTag.findNextOpen (h : OneTag s p) :
    p.findNextOpen = (find s.openTag p.pending).map fun pos => (pos, s) := by
  rw [InlineHiddenTagParser.findNextOpen, h.specs]
  cases hf : find s.openTag p.pending <;> simp [betterOpen, hf]

theorem OneTag.maxOpenPrefixSuffixLen (h : OneTag s p) :
    p.maxOpenPrefixSuffixLen = overlap p.pending s.openTag := by
  rw [InlineHiddenTagParser.maxOpenPrefixSuffixLen, h.specs, foldl_cons, foldl_nil, Nat.zero_max]

def sought : Str :=
  match active with
  | none => spec.openTag
  | some _ => spec.closeTag

theorem cut_append (h : find pat t = some i) (rest : Str) : (t ++ rest).take i = t.take i ∧
      (t ++ rest).drop (i + pat.length) = t.drop (i + pat.length) ++ rest := by
  obtain ⟨⟨hle, ho⟩, -⟩ := find_eq_some.mp h
  have hl := ho.length_le
  rw [length_drop] at hl
  exact ⟨take_append_of_le_length hle, drop_append_of_le_length (by omega)⟩

theorem cut_held (pat t r : Str) (j : ℕ) : (t ++ r).take (j + (passed t pat).length) =
        passed t pat ++ (held t pat ++ r).take j ∧
      (t ++ r).drop (j + (passed t pat).length + pat.length) =
        (held t pat ++ r).drop (j + pat.length) := by
  have hs : t ++ r = passed t pat ++ (held t pat ++ r) := by
    rw [← List.append_assoc, passed_append_held]
  rw [hs, Nat.add_comm, List.take_length_add_append]
  refine ⟨rfl, ?_⟩
  rw [Nat.add_assoc, drop_length_add_append]

theorem scanTag_held (h : find s.closeTag t = none) (r : Str) :
    scanTag s c (t ++ r) = scanTag s (c ++ passed t s.closeTag) (held t s.closeTag ++ r) := by
  have hf := find_append_of_none h r
  rw [scanTag, scanTag, hf]
  cases find s.closeTag (held t s.closeTag ++ r) with
  | none =>
    simp only [Option.map_none, List.append_assoc]
    rw [← List.append_assoc (passed _ _), passed_append_held]
  | some j =>
    obtain ⟨ht, hd⟩ := cut_held s.closeTag t r j
    simp [ht, hd]

theorem scan_held (h : find s.openTag t = none) (r : Str) :
    scan s (t ++ r) = StreamTextChunk.append ⟨passed t s.openTag, []⟩
      (scan s (held t s.openTag ++ r)) := by
  have hf := find_append_of_none h r
  cases hh : find s.openTag (held t s.openTag ++ r) with
  | none =>
    rw [hh] at hf
    rw [scan_of_none hf, scan_of_none hh]
    simp only [StreamTextChunk.append, List.append_nil]
    rw [← List.append_assoc, passed_append_held]
  | some j =>
    rw [hh] at hf
    obtain ⟨ht, hd⟩ := cut_held s.openTag t r j
    rw [scan_of_some hf, scan_of_some hh, ht, hd, ← append_assoc]
    rfl

/-- One call of the loop: what it gives out and what the rest of the scan finds from the new
state on is what the scan finds from the old one, and no delimiter is left in what is kept. -/
theorem pushLoop_scan (h : OneTag s p) (hf : p.pending.length < f)
    (out : StreamTextChunk (ExtractedInlineTag T)) :
    OneTag s (pushLoop f p out).1 ∧
      find (sought s (pushLoop f p out).1.active) (pushLoop f p out).1.pending = none ∧
      ∀ r, out.append (scanFrom s p.active (p.pending ++ r)) = (pushLoop f p out).2.append
          (scanFrom s (pushLoop f p out).1.active ((pushLoop f p out).1.pending ++ r)) := by
  induction f generalizing p out with
  | zero => exact absurd hf (Nat.not_lt_zero _)
  | succ f ih =>
    unfold pushLoop
    cases ha : p.active with
    | some a =>
      obtain rfl : a.spec = s := h.active a ha
      simp only
      cases hc : find a.spec.closeTag p.pending with
      | some ci =>
        have hsh := length_after_find a.spec.closeTag_ne hc
        have ho : OneTag a.spec ⟨p.specs, p.specs_ne,
            p.pending.drop (ci + a.spec.closeTag.length), none⟩ :=
          ⟨h.specs, nofun⟩
        obtain ⟨ho', hn, hs⟩ := ih ho (by simp only; omega) ⟨out.visibleText,
          out.extracted ++ [⟨a.spec.tag, a.content ++ p.pending.take ci⟩]⟩
        refine ⟨ho', hn, fun r => ?_⟩
        rw [← hs]
        obtain ⟨ht, hd⟩ := cut_append hc r
        simp only [scanFrom, scanTag, find_append_of_some hc r, ht, hd]
        simp [StreamTextChunk.append]
      | none =>
        refine ⟨⟨h.specs, ?_⟩, find_held a.spec.closeTag_ne, ?_⟩
        · intro a' hm
          cases hm
          rfl
        · intro r
          exact congrArg out.append (scanTag_held hc r)
    | none =>
      simp only [h.findNextOpen]
      cases hop : find s.openTag p.pending with
      | some oi =>
        have hsh := length_after_find s.openTag_ne hop
        have ho : OneTag s ⟨p.specs, p.specs_ne,
            p.pending.drop (oi + s.openTag.length), some ⟨s, []⟩⟩ := by
          refine ⟨h.specs, fun a' hm => ?_⟩
          cases hm
          rfl
        obtain ⟨ho', hn, hs⟩ := ih ho (by simp only; omega)
          ⟨out.visibleText ++ p.pending.take oi, out.extracted⟩
        refine ⟨ho', hn, fun r => ?_⟩
        simp only [Option.map_some]
        rw [← hs]
        obtain ⟨ht, hd⟩ := cut_append hop r
        simp only [scanFrom, scan_of_some (find_append_of_some hop r), ht, hd]
        simp [StreamTextChunk.append]
      | none =>
        simp only [h.maxOpenPrefixSuffixLen]
        refine ⟨⟨h.specs, nofun⟩, find_held s.openTag_ne, ?_⟩
        intro r
        simp only [scanFrom, scan_held hop r]
        simp [StreamTextChunk.append, passed, held]

theorem pushStr_scan (h : OneTag s p) (c : Str) : OneTag s (p.pushStr c).1 ∧
      find (sought s (p.pushStr c).1.active) (p.pushStr c).1.pending = none ∧
      ∀ r, scanFrom s p.active (p.pending ++ c ++ r) = (p.pushStr c).2.append
          (scanFrom s (p.pushStr c).1.active ((p.pushStr c).1.pending ++ r)) := by
  have ho : OneTag s ⟨p.specs, p.specs_ne, p.pending ++ c, p.active⟩ := ⟨h.specs, h.active⟩
  obtain ⟨ho', hn, hs⟩ := pushLoop_scan ho (Nat.lt_succ_self _) .empty
  refine ⟨ho', hn, fun r => ?_⟩
  exact hs r

theorem finish_scan (h : OneTag s p) (hn : find (sought s p.active) p.pending = none) :
    p.finish.2 = scanFrom s p.active p.pending := by
  unfold finish scanFrom
  cases ha : p.active with
  | some a =>
    obtain rfl : a.spec = s := h.active a ha
    rw [ha] at hn
    have hc : find a.spec.closeTag p.pending = none := hn
    simp [scanTag, hc]
  | none =>
    rw [ha] at hn
    exact (scan_of_none hn).symm

def outputs (p : InlineHiddenTagParser T) : List Str → List (StreamTextChunk (ExtractedInlineTag T))
  | [] => [p.finish.2]
  | chunk :: chunks => (p.pushStr chunk).2 :: outputs (p.pushStr chunk).1 chunks

def joined (outs : List (StreamTextChunk E)) : StreamTextChunk E :=
  outs.foldr StreamTextChunk.append .empty

theorem outputs_scan (h : OneTag s p) (hn : find (sought s p.active) p.pending = none)
    (cs : List Str) : joined (outputs p cs) = scanFrom s p.active (p.pending ++ cs.flatten) := by
  induction cs generalizing p with
  | nil =>
    rw [flatten_nil, append_nil, ← finish_scan h hn]
    simp [joined, outputs, StreamTextChunk.append, StreamTextChunk.empty]
  | cons chunk cs ih =>
    obtain ⟨ho, hn', hs⟩ := pushStr_scan h chunk
    rw [List.flatten_cons, ← List.append_assoc, hs, ← ih ho hn']
    rfl

/-- Whatever the chunks, together they give what one scan of the text finds. -/
theorem outputs_new (s : InlineTagSpec T) (cs : List Str) :
    joined (outputs (.new [s] (List.cons_ne_nil _ _)) cs) = scan s cs.flatten := by
  have ho : OneTag s (.new [s] (cons_ne_nil _ _)) := ⟨rfl, nofun⟩
  have hn : find s.openTag [] = none := find_eq_none_of_length (length_pos_iff.mpr s.openTag_ne)
  exact outputs_scan ho hn cs

end OneTag

end HiddenTags
