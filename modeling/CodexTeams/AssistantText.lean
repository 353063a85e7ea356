import CodexTeams.HiddenTags
import CodexTeams.TaggedLines

/-! Streamed assistant text: citations are hidden, and in plan mode plan blocks as well. The visible
text of the citation parser goes through the plan parser; what comes out does not depend on the
chunks. -/
namespace AssistantText

open RustStr Coalesce HiddenTags TaggedLines List StreamTextChunk

inductive CitationTag
  | citation
  deriving Repr

def citationOpen : Str := "<oai-mem-citation>"

def citationClose : Str := "</oai-mem-citation>"

def citationSpec : InlineTagSpec CitationTag :=
  ⟨.citation, citationOpen, citationClose, by decide, by decide⟩

structure CitationStreamParser where
  inner : InlineHiddenTagParser CitationTag

/-- Only the content of a citation is handed on. -/
def contents (out : StreamTextChunk (ExtractedInlineTag CitationTag)) : StreamTextChunk Str :=
  ⟨out.visibleText, out.extracted.map (·.content)⟩

namespace CitationStreamParser

def new : CitationStreamParser := ⟨.new [citationSpec] (List.cons_ne_nil _ _)⟩

variable (p : CitationStreamParser)

def pushStr (chunk : Str) : CitationStreamParser × StreamTextChunk Str :=
  (⟨(p.inner.pushStr chunk).1⟩, contents (p.inner.pushStr chunk).2)

def finish : CitationStreamParser × StreamTextChunk Str :=
  (⟨p.inner.finish.1⟩, contents p.inner.finish.2)

end CitationStreamParser

inductive PlanTag
  | proposedPlan
  deriving DecidableEq, Repr

def openTag : Str := "<proposed_plan>"

def closeTag : Str := "</proposed_plan>"

inductive ProposedPlanSegment
  | normal (text : Str)
  | proposedPlanStart
  | proposedPlanDelta (text : Str)
  | proposedPlanEnd
  deriving DecidableEq, Repr

def mapSegment : TaggedLineSegment PlanTag → ProposedPlanSegment
  | .normal text => .normal text
  | .tagStart .proposedPlan => .proposedPlanStart
  | .tagDelta .proposedPlan text => .proposedPlanDelta text
  | .tagEnd .proposedPlan => .proposedPlanEnd

def normalText : ProposedPlanSegment → Str
  | .normal text => text
  | _ => []

def mapSegments (segments : List (TaggedLineSegment PlanTag)) :
    StreamTextChunk ProposedPlanSegment :=
  ⟨(segments.map mapSegment).flatMap normalText, segments.map mapSegment⟩

structure ProposedPlanParser where
  parser : TaggedLineParser PlanTag

namespace ProposedPlanParser

def new : ProposedPlanParser := ⟨.new [⟨openTag, closeTag, .proposedPlan⟩]⟩

variable (p : ProposedPlanParser)

def pushStr (chunk : Str) : ProposedPlanParser × StreamTextChunk ProposedPlanSegment :=
  (⟨(p.parser.parse chunk).1⟩, mapSegments (p.parser.parse chunk).2)

def finish : ProposedPlanParser × StreamTextChunk ProposedPlanSegment :=
  (⟨p.parser.finish.1⟩, mapSegments p.parser.finish.2)

end ProposedPlanParser

def stripProposedPlanBlocks (text : Str) : Str :=
  (ProposedPlanParser.new.pushStr text).2.visibleText ++
    (ProposedPlanParser.new.pushStr text).1.finish.2.visibleText

structure AssistantTextChunk where
  visibleText : Str
  citations : List Str
  planSegments : List ProposedPlanSegment
  deriving DecidableEq, Repr

structure AssistantTextStreamParser where
  planMode : Bool
  citations : CitationStreamParser
  plan : ProposedPlanParser

namespace AssistantTextStreamParser

def new (planMode : Bool) : AssistantTextStreamParser := ⟨planMode, .new, .new⟩

variable (p : AssistantTextStreamParser)

def parseVisibleText (visibleText : Str) : AssistantTextStreamParser × AssistantTextChunk :=
  if p.planMode then
    (⟨p.planMode, p.citations, (p.plan.pushStr visibleText).1⟩,
      ⟨(p.plan.pushStr visibleText).2.visibleText, [], (p.plan.pushStr visibleText).2.extracted⟩)
  else (p, ⟨visibleText, [], []⟩)

def pushStr (chunk : Str) : AssistantTextStreamParser × AssistantTextChunk :=
  let citationChunk := p.citations.pushStr chunk
  let parsed := parseVisibleText ⟨p.planMode, citationChunk.1, p.plan⟩ citationChunk.2.visibleText
  (parsed.1, ⟨parsed.2.visibleText, citationChunk.2.extracted, parsed.2.planSegments⟩)

def finish : AssistantTextStreamParser × AssistantTextChunk :=
  let citationChunk := p.citations.finish
  let parsed := parseVisibleText ⟨p.planMode, citationChunk.1, p.plan⟩ citationChunk.2.visibleText
  if p.planMode then
    let tail := parsed.1.plan.finish
    (⟨p.planMode, citationChunk.1, tail.1⟩,
      ⟨parsed.2.visibleText ++ tail.2.visibleText, citationChunk.2.extracted,
        parsed.2.planSegments ++ tail.2.extracted⟩)
  else (parsed.1, ⟨parsed.2.visibleText, citationChunk.2.extracted, parsed.2.planSegments⟩)

def streamed (p : AssistantTextStreamParser) : List Str → List AssistantTextChunk
  | [] => [p.finish.2]
  | chunk :: chunks => (p.pushStr chunk).2 :: streamed (p.pushStr chunk).1 chunks

end AssistantTextStreamParser

def planView : TextView ProposedPlanSegment Bool Char where
  view segment :=
    match segment with
    | .normal text => some (false, text)
    | .proposedPlanDelta text => some (true, text)
    | .proposedPlanStart | .proposedPlanEnd => none
  make inside text := if inside then .proposedPlanDelta text else .normal text
  view_make inside text := by cases inside <;> rfl
  make_view := by
    intro segment inside text h
    cases segment <;> cases h <;> rfl

def mergeAdjacent (segments : List ProposedPlanSegment) : List ProposedPlanSegment :=
  coalesce planView.rules segments

def joinOutputs (outs : List AssistantTextChunk) : AssistantTextChunk :=
  ⟨outs.flatMap (·.visibleText), outs.flatMap (·.citations),
    mergeAdjacent (outs.flatMap (·.planSegments))⟩

section Chunks

open AssistantTextStreamParser

theorem planView_fuse (a b : TaggedLineSegment PlanTag) :
    planView.rules.fuse (mapSegment a) (mapSegment b) = (segmentRules.fuse a b).map mapSegment := by
  rcases a with _ | ⟨⟨⟩⟩ | ⟨⟨⟩, _⟩ | ⟨⟨⟩⟩ <;> rcases b with _ | ⟨⟨⟩⟩ | ⟨⟨⟩, _⟩ | ⟨⟨⟩⟩ <;> rfl

theorem planView_blank (a : TaggedLineSegment PlanTag) :
    planView.rules.blank (mapSegment a) = segmentRules.blank a := by
  rcases a with _ | ⟨⟨⟩⟩ | ⟨⟨⟩, _⟩ | ⟨⟨⟩⟩ <;> rfl

theorem mergeAdjacent_map (ss : List (TaggedLineSegment PlanTag)) :
    mergeAdjacent (ss.map mapSegment) = (coalesce segmentRules ss).map mapSegment :=
  (map_coalesce planView_fuse planView_blank ss).symm

theorem normalText_mergeAdjacent (ss : List ProposedPlanSegment) :
    (mergeAdjacent ss).flatMap normalText = ss.flatMap normalText := by
  apply flatMap_coalesce
  · intro a b ab hf
    obtain ⟨i, text, m, rfl, rfl, rfl⟩ := TextView.fuse_eq_some hf
    cases i <;> rfl
  · intro a hb
    cases a with
    | normal text => exact isEmpty_iff.mp hb
    | _ => rfl

variable (p : ProposedPlanParser)

def planOf (text : Str) : List ProposedPlanSegment :=
  mergeAdjacent ((readWhole p.parser text).map mapSegment)

theorem planOutputs_eq (cs : List Str) :
    mergeAdjacent ((TaggedLines.outputs p.parser cs).flatten.map mapSegment) =
      planOf p cs.flatten := by
  rw [planOf, mergeAdjacent_map, mergeAdjacent_map, coalesce_outputs]

theorem stripProposedPlanBlocks_eq (t : Str) :
    stripProposedPlanBlocks t = (planOf .new t).flatMap normalText := by
  have hp := planOutputs_eq .new [t]
  rw [flatten_singleton] at hp
  rw [← hp, normalText_mergeAdjacent]
  simp [stripProposedPlanBlocks, TaggedLines.outputs, ProposedPlanParser.pushStr,
    ProposedPlanParser.finish, mapSegments]

variable (cs : CitationStreamParser) (p : ProposedPlanParser)

theorem streamed_plan (chs : List Str) : (streamed ⟨true, cs, p⟩ chs).flatMap (·.planSegments) =
        (TaggedLines.outputs p.parser ((HiddenTags.outputs cs.inner chs).map
          (·.visibleText))).flatten.map mapSegment ∧
      (streamed ⟨true, cs, p⟩ chs).flatMap (·.visibleText) =
        ((streamed ⟨true, cs, p⟩ chs).flatMap (·.planSegments)).flatMap normalText := by
  induction chs generalizing cs p with
  | nil =>
    simp [streamed, TaggedLines.outputs, HiddenTags.outputs, finish,
      parseVisibleText, ProposedPlanParser.pushStr, ProposedPlanParser.finish, mapSegments,
      CitationStreamParser.finish, contents]
  | cons chunk chs ih =>
    obtain ⟨hp, hv⟩ := ih (cs.pushStr chunk).1 (p.pushStr (cs.pushStr chunk).2.visibleText).1
    simp only [streamed, HiddenTags.outputs, map_cons, TaggedLines.outputs,
      flatten_cons, flatMap_cons, map_append, flatMap_append]
    exact ⟨congrArg _ hp, congrArg _ hv⟩

theorem streamed_visible (chs : List Str) :
    (streamed ⟨false, cs, p⟩ chs).flatMap (·.planSegments) = [] ∧
      (streamed ⟨false, cs, p⟩ chs).flatMap (·.visibleText) =
        (joined (HiddenTags.outputs cs.inner chs)).visibleText := by
  induction chs generalizing cs p with
  | nil =>
    simp [streamed, HiddenTags.outputs, finish, parseVisibleText,
      CitationStreamParser.finish, contents, joined, append,
      empty]
  | cons chunk chs ih =>
    obtain ⟨hp, hv⟩ := ih (cs.pushStr chunk).1 p
    exact ⟨hp, congrArg _ hv⟩

theorem streamed_citations (pm : Bool) (cs : CitationStreamParser)
    (p : ProposedPlanParser) (chs : List Str) :
    (streamed ⟨pm, cs, p⟩ chs).flatMap (·.citations) =
      (joined (HiddenTags.outputs cs.inner chs)).extracted.map (·.content) := by
  induction chs generalizing cs p with
  | nil =>
    cases pm <;> simp [streamed, HiddenTags.outputs, finish,
      CitationStreamParser.finish, contents, joined, append,
      empty]
  | cons chunk chs ih =>
    have hc : (joined (outputs cs.inner (chunk :: chs))).extracted =
        (cs.inner.pushStr chunk).2.extracted ++
          (joined (outputs (cs.inner.pushStr chunk).1 chs)).extracted := rfl
    rw [hc, map_append]
    cases pm with
    | true => exact congrArg _ (ih (cs.pushStr chunk).1 _)
    | false => exact congrArg _ (ih (cs.pushStr chunk).1 p)

theorem joined_visibleText (os : List (StreamTextChunk E)) :
    (joined os).visibleText = (os.map (·.visibleText)).flatten := by
  induction os with
  | nil => rfl
  | cons out os ih => exact congrArg (out.visibleText ++ ·) ih

def expected (planMode : Bool) (text : Str) : AssistantTextChunk :=
  let found := scan citationSpec text
  if planMode then
    ⟨stripProposedPlanBlocks found.visibleText, found.extracted.map (·.content),
      planOf .new found.visibleText⟩
  else ⟨found.visibleText, found.extracted.map (·.content), []⟩

theorem joinOutputs_eq_expected (pm : Bool) (chunks : List Str) :
    joinOutputs (streamed (.new pm) chunks) = expected pm chunks.flatten := by
  have hsc : joined (outputs CitationStreamParser.new.inner chunks) =
      scan citationSpec chunks.flatten := outputs_new citationSpec chunks
  have hc := streamed_citations pm .new .new chunks
  rw [hsc] at hc
  cases pm with
  | true =>
    obtain ⟨hp, hv⟩ := streamed_plan .new .new chunks
    have hs : mergeAdjacent ((streamed (.new true) chunks).flatMap (·.planSegments)) =
        planOf .new (scan citationSpec chunks.flatten).visibleText := by
      rw [← hsc, joined_visibleText, ← planOutputs_eq, ← hp]
      rfl
    have ht : (streamed (.new true) chunks).flatMap (·.visibleText) =
        stripProposedPlanBlocks (scan citationSpec chunks.flatten).visibleText := by
      rw [stripProposedPlanBlocks_eq, ← hs, normalText_mergeAdjacent]
      exact hv
    rw [joinOutputs, hs, ht]
    exact congrArg (AssistantTextChunk.mk _ · _) hc
  | false =>
    obtain ⟨hp, hv⟩ := streamed_visible .new .new chunks
    rw [hsc] at hv
    rw [joinOutputs, new, hp, hv, hc]
    rfl

/-- Streaming does not depend on the chunks. -/
theorem streaming_chunk_independent (planMode : Bool) (text : Str) (chunks : List Str)
    (hsplit : chunks.flatten = text) :
    joinOutputs (streamed (.new planMode) chunks) = joinOutputs (streamed (.new planMode) [text]) ∧
      (joinOutputs (streamed (.new planMode) chunks)).citations =
        (scan citationSpec text).extracted.map (·.content) ∧
      (joinOutputs (streamed (.new planMode) chunks)).visibleText =
        if planMode then stripProposedPlanBlocks (scan citationSpec text).visibleText
        else (scan citationSpec text).visibleText := by
  subst hsplit
  rw [joinOutputs_eq_expected, joinOutputs_eq_expected, flatten_singleton]
  cases planMode <;> exact ⟨rfl, rfl, rfl⟩

end Chunks

section Instances

open AssistantTextStreamParser

def planText : String :=
  "Intro\n<proposed_plan>\n- a<oai-mem-citation>d</oai-mem-citation>\n</proposed_plan>\nOutro"

def planChunks : List Str :=
  ["Intro\n<propo", "sed_plan>\n- a<oai-mem", "-citation>", "d</oai-", "mem-citation>\n</prop",
    "osed_plan>\nOutro"].map String.toList

theorem planChunks_independent : planChunks.flatten = planText.toList ∧
      joinOutputs (streamed (.new true) planChunks) =
        joinOutputs (streamed (.new true) [planText.toList]) ∧
      joinOutputs (streamed (.new true) planChunks) =
        ⟨"Intro\nOutro", ["d"], [.normal "Intro\n", .proposedPlanStart,
          .proposedPlanDelta "- a\n", .proposedPlanEnd, .normal "Outro"]⟩ := by
  have hs : planChunks.flatten = planText.toList := by decide +kernel
  exact ⟨hs, (streaming_chunk_independent true planText.toList planChunks hs).1, by decide +kernel⟩

/-- In plan mode the visible text is not what the scan for citations leaves. -/
theorem plan_block_not_visible : (joinOutputs (streamed (.new true)
        ["<proposed_plan>\na\n</proposed_plan>\nb"])).visibleText = "b" ∧
      (scan citationSpec "<proposed_plan>\na\n</proposed_plan>\nb").visibleText =
        "<proposed_plan>\na\n</proposed_plan>\nb" := by
  refine ⟨by decide +kernel, ?_⟩
  rw [scan_of_none (by decide +kernel)]

end Instances

end AssistantText
