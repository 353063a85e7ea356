import CodexTeams.RustInt
import CodexTeams.StableSort
import CodexTeams.Utf8
import Mathlib.Algebra.GroupWithZero.Nat
import Mathlib.Data.Char
import Mathlib.Data.List.Dedup
import Mathlib.Data.List.Lex
import Mathlib.Data.List.Perm.Subperm

/-! The names under which MCP tools are shown to the model: raw names are sanitised, those that
collide get a hash, and a last pass makes every name unique and short enough. -/
namespace ToolNames

open RustInt RustStr StableSort Utf8 List Function

structure ToolInfo where
  serverName : Str
  callableName : Str
  callableNamespace : Str
  /-- `tool.name`, which is sent back to the server. -/
  toolName : Str
  connectorId : Option Str
  deriving DecidableEq

namespace ToolInfo

variable (tool : ToolInfo)

def rawNamespaceIdentity : Str :=
  tool.serverName ++ '\x00' :: tool.callableNamespace ++ '\x00' :: tool.connectorId.getD []

def rawToolIdentity : Str :=
  tool.rawNamespaceIdentity ++ '\x00' :: tool.callableName ++ '\x00' :: tool.toolName

def modelName : Str := tool.callableNamespace ++ tool.callableName

end ToolInfo

def isNameChar (c : Char) : Bool := c.isAlphanum || c == '_'

def sanitizeResponsesApiToolName (name : Str) : Str :=
  let sanitized := name.map fun c => if isNameChar c then c else '_'
  if sanitized = [] then ['_'] else sanitized

def legacyMcpToolNamePrefix : Str := "mcp__"
def mcpToolNameDelimiter : Str := "__"
def maxToolNameLength : ℕ := 64
def callableNameHashLen : ℕ := 12

def callableNamespaceWithPrefix (callableNamespace : Str) (prefixMcpToolNames : Bool) : Str :=
  if !prefixMcpToolNames || startsWith callableNamespace legacyMcpToolNamePrefix then
    callableNamespace
  else legacyMcpToolNamePrefix ++ callableNamespace

/-- Hexadecimal digits as `sha1_hex` writes them. -/
structure Digest where
  digits : Str
  length_eq : digits.length = 40
  hex : ∀ c ∈ digits, c ∈ "0123456789abcdef".toList

structure CallableToolCandidate where
  tool : ToolInfo
  callableNamespace : Str
  callableName : Str

def skipDuplicated (seenRawNames : List Str) : List ToolInfo → List ToolInfo
  | [] => []
  | tool :: tools =>
    if tool.rawToolIdentity ∈ seenRawNames then skipDuplicated seenRawNames tools
    else tool :: skipDuplicated (tool.rawToolIdentity :: seenRawNames) tools

def candidate (prefixMcpToolNames : Bool) (tool : ToolInfo) : CallableToolCandidate where
  tool := tool
  callableNamespace := callableNamespaceWithPrefix
    (sanitizeResponsesApiToolName tool.callableNamespace) prefixMcpToolNames
  callableName := sanitizeResponsesApiToolName tool.callableName

def Collides {κ : Type*} [DecidableEq κ] (base : CallableToolCandidate → κ)
    (identity : ToolInfo → Str) (candidates : List CallableToolCandidate) (key : κ) : Prop :=
  1 < ((candidates.filter fun c => base c = key).map fun c => identity c.tool).dedup.length

instance decidableCollides {κ : Type*} [DecidableEq κ] (base : CallableToolCandidate → κ)
    (identity : ToolInfo → Str) (candidates : List CallableToolCandidate) (key : κ) :
    Decidable (Collides base identity candidates key) :=
  inferInstanceAs (Decidable (_ < _))

section Hash

variable (sha1Hex : Str → Digest) (rawIdentity : Str)

def callableNameHashSuffix : Str :=
  '_' :: (sha1Hex rawIdentity).digits.take callableNameHashLen

def appendHashSuffix (value rawIdentity : Str) : Str :=
  value ++ callableNameHashSuffix sha1Hex rawIdentity

def appendNamespaceHashSuffix (callableNamespace rawIdentity : Str) : Str :=
  match mcpToolNameDelimiter.isSuffixOf? callableNamespace with
  | some stripped =>
    stripped ++ callableNameHashSuffix sha1Hex rawIdentity ++ mcpToolNameDelimiter
  | none => appendHashSuffix sha1Hex callableNamespace rawIdentity

section

variable (candidates : List CallableToolCandidate) (c : CallableToolCandidate)

def suffixNamespace : CallableToolCandidate :=
  if Collides (fun c => c.callableNamespace) ToolInfo.rawNamespaceIdentity candidates
      c.callableNamespace then
    { c with
      callableNamespace := appendNamespaceHashSuffix sha1Hex c.callableNamespace
        c.tool.rawNamespaceIdentity }
  else c

def suffixTool : CallableToolCandidate :=
  if Collides (fun c => (c.callableNamespace, c.callableName)) ToolInfo.rawToolIdentity candidates
      (c.callableNamespace, c.callableName) then
    { c with callableName := appendHashSuffix sha1Hex c.callableName c.tool.rawToolIdentity }
  else c

end

def candidates (tools : List ToolInfo) (prefixMcpToolNames : Bool) : List CallableToolCandidate :=
  let bases := (skipDuplicated [] tools).map (candidate prefixMcpToolNames)
  let spaced := bases.map (suffixNamespace sha1Hex bases)
  let named := spaced.map (suffixTool sha1Hex spaced)
  sortByKey (fun c => c.tool.rawToolIdentity) named

variable (callableNamespace toolName rawIdentity : Str)

def fitCallablePartsWithHash (reservedLen : ℕ) : Str × Str :=
  let suffix := callableNameHashSuffix sha1Hex rawIdentity
  let maxToolLen := maxToolNameLength - (byteLen callableNamespace + reservedLen)
  if byteLen suffix ≤ maxToolLen then
    (callableNamespace, toolName.take (maxToolLen - byteLen suffix) ++ suffix)
  else
    (callableNamespace.take (maxToolNameLength - (byteLen suffix + reservedLen)), suffix)

def hashInput (attempt : ℕ) : Str :=
  if attempt = 0 then rawIdentity else rawIdentity ++ '\x00' :: (Nat.repr attempt).toList

def retry (usedNames : List Str)
    (reservedLen : ℕ) : ℕ → ℕ → Option (Str × Str)
  | 0, _ => none
  | rounds + 1, attempt =>
    let parts := fitCallablePartsWithHash sha1Hex callableNamespace toolName
      (hashInput rawIdentity attempt) reservedLen
    if parts.1 ++ parts.2 ∈ usedNames then
      retry usedNames reservedLen rounds
        (min (attempt + 1) u32Max)
    else some parts

variable (rounds : ℕ)

def uniqueCallableParts (callableNamespace toolName rawIdentity : Str)
    (usedNames : List Str) (reservedLen : ℕ) : Option (Str × Str) :=
  let modelName := callableNamespace ++ toolName
  if byteLen modelName + reservedLen ≤ maxToolNameLength ∧ modelName ∉ usedNames then
    some (callableNamespace, toolName)
  else retry sha1Hex callableNamespace toolName rawIdentity usedNames reservedLen rounds 0

def nameTools : List Str → List CallableToolCandidate → Option (List ToolInfo)
  | _, [] => some []
  | usedNames, c :: rest => do
    let parts ← uniqueCallableParts sha1Hex rounds c.callableNamespace c.callableName
      c.tool.rawToolIdentity usedNames mcpToolNameDelimiter.length
    let modelTools ← nameTools ((parts.1 ++ parts.2) :: usedNames) rest
    return { c.tool with callableNamespace := parts.1, callableName := parts.2 } :: modelTools

def normalizeToolsForModelWithPrefix (tools : List ToolInfo)
    (prefixMcpToolNames : Bool) : Option (List ToolInfo) :=
  nameTools sha1Hex rounds [] (candidates sha1Hex tools prefixMcpToolNames)

/-- The call returns, whatever number of rounds its loops take. -/
def Returns (tools : List ToolInfo) (prefixMcpToolNames : Bool) (modelTools : List ToolInfo) :
    Prop :=
  ∃ rounds, normalizeToolsForModelWithPrefix sha1Hex rounds tools prefixMcpToolNames =
    some modelTools

end Hash

theorem utf8Size_of_isNameChar (h : isNameChar c = true) : c.utf8Size = 1 := by
  rw [Char.utf8Size_eq_one_iff]
  change (decide (c.val ≥ 'A'.val ∧ c.val ≤ 'Z'.val) ||
    (decide (c.val ≥ 'a'.val) && decide (c.val ≤ 'z'.val)) ||
    (decide (c.val ≥ '0'.val) && decide (c.val ≤ '9'.val)) || c == '_') = true at h
  simp only [Bool.or_eq_true, Bool.and_eq_true, decide_eq_true_eq, beq_iff_eq] at h
  rcases h with ((h | h) | h) | rfl
  · exact UInt32.le_trans h.2 (by decide)
  · exact UInt32.le_trans h.2 (by decide)
  · exact UInt32.le_trans h.2 (by decide)
  · decide

/-- Letters, digits and underscores of ASCII. -/
def NameText (s : Str) : Prop := ∀ c ∈ s, isNameChar c = true

instance decidableNameText (s : Str) : Decidable (NameText s) :=
  decidable_of_iff (s.all isNameChar = true) List.all_eq_true

theorem NameText.append (hs : NameText s) (ht : NameText t) : NameText (s ++ t) := by
  intro c hc
  rcases mem_append.mp hc with hc | hc
  · exact hs c hc
  · exact ht c hc

theorem NameText.of_append_left (h : NameText (s ++ t)) : NameText s :=
  fun c hc => h c (mem_append_left t hc)

theorem NameText.take (h : NameText s) (n : ℕ) : NameText (s.take n) :=
  fun c hc => h c (mem_of_mem_take hc)

theorem NameText.byteLen_eq (h : NameText s) : byteLen s = s.length := by
  induction s with
  | nil => rfl
  | cons c s ih =>
    have hs := utf8Size_of_isNameChar (h c mem_cons_self)
    have hr : NameText s := fun d hd => h d (mem_cons_of_mem c hd)
    rw [byteLen_cons, hs, ih hr, length_cons, Nat.add_comm]

theorem nameText_sanitize (n : Str) : NameText (sanitizeResponsesApiToolName n) := by
  rw [sanitizeResponsesApiToolName]
  split
  · decide
  · intro c hc
    obtain ⟨d, _, rfl⟩ := mem_map.mp hc
    split
    · assumption
    · decide

theorem nameText_namespaceWithPrefix (h : NameText n) (pns : Bool) :
    NameText (callableNamespaceWithPrefix n pns) := by
  rw [callableNamespaceWithPrefix]
  split
  · exact h
  · exact NameText.append (by decide) h

theorem isNameChar_of_hex (h : c ∈ "0123456789abcdef".toList) : isNameChar c = true := by
  have ha : NameText "0123456789abcdef" := by decide
  exact ha c h

section Texts

variable (sh : Str → Digest)

theorem nameText_hashSuffix (i : Str) : NameText (callableNameHashSuffix sh i) := by
  intro c hc
  rcases mem_cons.mp hc with rfl | hc
  · decide
  · exact isNameChar_of_hex ((sh i).hex c (mem_of_mem_take hc))

theorem length_hashSuffix (i : Str) : (callableNameHashSuffix sh i).length = 13 := by
  simp [callableNameHashSuffix, (sh i).length_eq, callableNameHashLen]

theorem byteLen_hashSuffix (i : Str) : byteLen (callableNameHashSuffix sh i) = 13 := by
  rw [(nameText_hashSuffix sh i).byteLen_eq, length_hashSuffix]

theorem nameText_appendHashSuffix (h : NameText v) (i : Str) : NameText (appendHashSuffix sh v i) :=
  h.append (nameText_hashSuffix sh i)

theorem nameText_appendNamespaceHashSuffix (h : NameText n) (i : Str) :
    NameText (appendNamespaceHashSuffix sh n i) := by
  rw [appendNamespaceHashSuffix]
  split
  · rename_i stripped hs
    rw [List.isSuffixOf?_eq_some_iff_append_eq] at hs
    rw [← hs] at h
    exact (h.of_append_left.append (nameText_hashSuffix sh i)).append (by decide)
  · exact nameText_appendHashSuffix sh h i

def CallableToolCandidate.NameTexts (c : CallableToolCandidate) : Prop :=
  NameText c.callableNamespace ∧ NameText c.callableName

theorem nameTexts_candidate (pns : Bool) (t : ToolInfo) : (candidate pns t).NameTexts :=
  ⟨nameText_namespaceWithPrefix (nameText_sanitize _) _, nameText_sanitize _⟩

theorem nameTexts_suffixNamespace (h : c.NameTexts) (cs : List CallableToolCandidate) :
    (suffixNamespace sh cs c).NameTexts := by
  rw [suffixNamespace]
  split
  · exact ⟨nameText_appendNamespaceHashSuffix sh h.1 _, h.2⟩
  · exact h

theorem nameTexts_suffixTool (h : c.NameTexts) (cs : List CallableToolCandidate) :
    (suffixTool sh cs c).NameTexts := by
  rw [suffixTool]
  split
  · exact ⟨h.1, nameText_appendHashSuffix sh h.2 _⟩
  · exact h

theorem nameTexts_candidates (ts : List ToolInfo) (pns : Bool) :
    ∀ c ∈ candidates sh ts pns, c.NameTexts := by
  intro c hc
  rw [candidates, mem_sortByKey] at hc
  obtain ⟨s, hs, rfl⟩ := mem_map.mp hc
  obtain ⟨b, hb, rfl⟩ := mem_map.mp hs
  obtain ⟨t, _, rfl⟩ := mem_map.mp hb
  apply nameTexts_suffixTool
  apply nameTexts_suffixNamespace
  exact nameTexts_candidate pns t

/-- The parts make a name that the model may be shown. -/
structure Fits (parts : Str × Str) : Prop where
  text : NameText (parts.1 ++ parts.2)
  length : byteLen (parts.1 ++ parts.2) + 2 ≤ 64

theorem fits_fitCallablePartsWithHash (hs : NameText n) (hn : NameText tnm) (rawIdentity : Str) :
    Fits (fitCallablePartsWithHash sh n tnm rawIdentity 2) := by
  have hsf := nameText_hashSuffix sh rawIdentity
  have hl := length_hashSuffix sh rawIdentity
  rw [fitCallablePartsWithHash, byteLen_hashSuffix, hs.byteLen_eq, maxToolNameLength]
  split
  · have ht := hs.append ((hn.take (64 - (n.length + 2) - 13)).append hsf)
    refine ⟨ht, ?_⟩
    rw [ht.byteLen_eq]
    simp only [length_append, length_take]
    omega
  · have ht := (hs.take (64 - (13 + 2))).append hsf
    refine ⟨ht, ?_⟩
    rw [ht.byteLen_eq]
    simp only [length_append, length_take]
    omega

section Parts

variable {sh}

theorem retry_spec (h : retry sh cn tn ri uns 2 rs a = some ps) :
    ps.1 ++ ps.2 ∉ uns ∧ ∃ i, ps = fitCallablePartsWithHash sh cn tn i 2 := by
  induction rs generalizing a with
  | zero => cases h
  | succ rs ih =>
    rw [retry] at h
    split at h
    · exact ih h
    · rename_i hf
      rw [Option.some.injEq] at h
      subst h
      exact ⟨hf, _, rfl⟩

theorem uniqueCallableParts_spec (hs : NameText cn) (hn : NameText tn)
    (h : uniqueCallableParts sh rs cn tn ri uns 2 = some ps) : ps.1 ++ ps.2 ∉ uns ∧ Fits ps := by
  rw [uniqueCallableParts] at h
  split at h
  · rename_i hf
    rw [Option.some.injEq] at h
    subst h
    exact ⟨hf.2, hs.append hn, hf.1⟩
  · obtain ⟨hf, input, rfl⟩ := retry_spec h
    exact ⟨hf, fits_fitCallablePartsWithHash sh hs hn input⟩

theorem retry_mono (hle : rs ≤ rs') (h : retry sh cn tn ri uns 2 rs a = some ps) :
    retry sh cn tn ri uns 2 rs' a = some ps := by
  induction rs generalizing rs' a with
  | zero => cases h
  | succ rs ih =>
    obtain ⟨rs', rfl⟩ := Nat.exists_eq_succ_of_ne_zero (Nat.ne_of_gt (Nat.lt_of_lt_of_le
      (Nat.succ_pos rs) hle))
    rw [retry] at h ⊢
    split at h
    · rename_i hu
      rw [if_pos hu]
      exact ih (Nat.le_of_succ_le_succ hle) h
    · rename_i hf
      rw [if_neg hf, h]

theorem uniqueCallableParts_mono (hle : rs ≤ rs')
    (h : uniqueCallableParts sh rs cn tn ri uns 2 = some ps) :
    uniqueCallableParts sh rs' cn tn ri uns 2 = some ps := by
  rw [uniqueCallableParts] at h ⊢
  split at h
  · rename_i hf
    rw [if_pos hf, h]
  · rename_i hu
    rw [if_neg hu]
    exact retry_mono hle h

end Parts

/-- The tool is the raw one but for its callable names. -/
def SameTool (raw shown : ToolInfo) : Prop :=
  shown.serverName = raw.serverName ∧ shown.toolName = raw.toolName ∧
    shown.connectorId = raw.connectorId

section Naming

variable {sh}

theorem nameTools_cons (h : nameTools sh rs uns (c :: r) = some mts) :
    ∃ ps shown, uniqueCallableParts sh rs c.callableNamespace c.callableName
        c.tool.rawToolIdentity uns 2 = some ps ∧
      nameTools sh rs ((ps.1 ++ ps.2) :: uns) r = some shown ∧ mts =
        { c.tool with callableNamespace := ps.1, callableName := ps.2 } :: shown := by
  rw [nameTools, Option.bind_eq_bind, Option.bind_eq_some_iff] at h
  obtain ⟨ps, hp, h⟩ := h
  rw [Option.bind_eq_bind, Option.bind_eq_some_iff] at h
  obtain ⟨shown, hs, h⟩ := h
  exact ⟨ps, shown, hp, hs, (Option.some.inj h).symm⟩

theorem nameTools_spec (htx : ∀ c ∈ cs, c.NameTexts) (h : nameTools sh rs uns cs = some mts) :
    List.Forall₂ SameTool (cs.map fun c => c.tool) mts ∧ (mts.map ToolInfo.modelName).Nodup ∧
    ∀ t ∈ mts, t.modelName ∉ uns ∧ Fits (t.callableNamespace, t.callableName) := by
  induction cs generalizing uns mts with
  | nil =>
    cases h
    simp
  | cons c r ih =>
    obtain ⟨ps, shown, hp, hs, rfl⟩ := nameTools_cons h
    obtain ⟨hsp, hnm⟩ := htx c mem_cons_self
    obtain ⟨hu, hf⟩ := uniqueCallableParts_spec hsp hnm hp
    obtain ⟨hsm, hnd, ha⟩ := ih (fun d hd => htx d (mem_cons_of_mem c hd)) hs
    refine ⟨.cons ⟨rfl, rfl, rfl⟩ hsm, ?_, ?_⟩
    · rw [map_cons, nodup_cons]
      refine ⟨?_, hnd⟩
      intro hm
      obtain ⟨t, ht, heq⟩ := mem_map.mp hm
      have hn := (ha t ht).1
      rw [heq] at hn
      exact hn mem_cons_self
    · intro t ht
      rcases mem_cons.mp ht with rfl | ht
      · exact ⟨hu, hf⟩
      · obtain ⟨hn, hft⟩ := ha t ht
        exact ⟨fun hus => hn (mem_cons_of_mem _ hus), hft⟩

theorem nameTools_mono (hle : rs ≤ rs') (h : nameTools sh rs uns cs = some mts) :
    nameTools sh rs' uns cs = some mts := by
  induction cs generalizing uns mts with
  | nil => exact h
  | cons c r ih =>
    obtain ⟨ps, shown, hp, hs, rfl⟩ := nameTools_cons h
    have hm : uniqueCallableParts sh rs' c.callableNamespace c.callableName
        c.tool.rawToolIdentity uns mcpToolNameDelimiter.length = some ps :=
      uniqueCallableParts_mono hle hp
    rw [nameTools, hm, Option.bind_eq_bind, Option.bind_some, ih hs]
    rfl

end Naming

def keptTools (tools : List ToolInfo) : List ToolInfo :=
  sortByKey ToolInfo.rawToolIdentity (skipDuplicated [] tools)

section

variable (cs : List CallableToolCandidate) (c : CallableToolCandidate)

theorem tool_suffixNamespace : (suffixNamespace sh cs c).tool = c.tool := by
  rw [suffixNamespace]
  split <;> rfl

theorem tool_suffixTool : (suffixTool sh cs c).tool = c.tool := by
  rw [suffixTool]
  split <;> rfl

end

theorem map_tool_candidates (tools : List ToolInfo) (pns : Bool) :
    (candidates sh tools pns).map (fun c => c.tool) = keptTools tools := by
  rw [candidates, keptTools, map_sortByKey]
  simp [comp_def, tool_suffixTool, tool_suffixNamespace, candidate]

theorem mem_skipDuplicated : i ∈ (skipDuplicated seen ts).map ToolInfo.rawToolIdentity ↔
      i ∈ ts.map ToolInfo.rawToolIdentity ∧ i ∉ seen := by
  induction ts generalizing seen with
  | nil => simp [skipDuplicated]
  | cons t ts ih =>
    rw [skipDuplicated]
    split
    · rename_i hs
      rw [ih, map_cons, mem_cons]
      constructor
      · rintro ⟨hm, hn⟩
        exact ⟨.inr hm, hn⟩
      · rintro ⟨rfl | hm, hn⟩
        · exact absurd hs hn
        · exact ⟨hm, hn⟩
    · rename_i hnw
      rw [map_cons, mem_cons, ih]
      by_cases heq : i = t.rawToolIdentity
      · simp [heq, hnw]
      · simp [heq]

theorem nodup_skipDuplicated (s : List Str) (ts : List ToolInfo) :
    ((skipDuplicated s ts).map ToolInfo.rawToolIdentity).Nodup := by
  induction ts generalizing s with
  | nil => exact nodup_nil
  | cons t ts ih =>
    rw [skipDuplicated]
    split
    · exact ih s
    · rw [map_cons, nodup_cons]
      refine ⟨?_, ih _⟩
      intro hm
      exact (mem_skipDuplicated.mp hm).2 mem_cons_self

theorem skipDuplicated_sublist (s : List Str) (tools : List ToolInfo) :
    (skipDuplicated s tools).Sublist tools := by
  induction tools generalizing s with
  | nil => exact .refl _
  | cons t tools ih =>
    rw [skipDuplicated]
    split
    · exact (ih s).cons t
    · exact (ih _).cons_cons t

theorem skipDuplicated_eq_self {s : List Str} (hn : (tools.map ToolInfo.rawToolIdentity).Nodup)
    (hnw : ∀ t ∈ tools, t.rawToolIdentity ∉ s) : skipDuplicated s tools = tools := by
  induction tools generalizing s with
  | nil => rfl
  | cons t tools ih =>
    rw [map_cons, nodup_cons] at hn
    rw [skipDuplicated, if_neg (hnw t mem_cons_self), ih hn.2]
    intro o ho hs
    rcases mem_cons.mp hs with heq | hs
    · exact hn.1 (heq ▸ mem_map_of_mem ho)
    · exact hnw o (mem_cons_of_mem t ho) hs

theorem collides_congr [DecidableEq κ] (h : cs.Perm cs') {key : κ} :
    Collides b i cs key ↔ Collides b i cs' key := by
  have hl := (((h.filter fun c => b c = key).map fun c => i c.tool).dedup).length_eq
  rw [Collides, Collides, hl]

theorem suffixNamespace_congr (h : cs.Perm cs') :
    suffixNamespace sh cs = suffixNamespace sh cs' := by
  funext c
  simp [suffixNamespace, collides_congr h]

theorem suffixTool_congr (h : cs.Perm cs') : suffixTool sh cs = suffixTool sh cs' := by
  funext c
  simp [suffixTool, collides_congr h]

theorem candidates_congr (h : ts.Perm ts') (hn : (ts.map ToolInfo.rawToolIdentity).Nodup)
    (prefixMcpToolNames : Bool) :
    candidates sh ts prefixMcpToolNames = candidates sh ts' prefixMcpToolNames := by
  have hn' := (h.map ToolInfo.rawToolIdentity).nodup_iff.mp hn
  rw [candidates, candidates, skipDuplicated_eq_self hn (by simp),
    skipDuplicated_eq_self hn' (by simp)]
  have hb := h.map (candidate prefixMcpToolNames)
  rw [suffixNamespace_congr sh hb]
  have hs := hb.map (suffixNamespace sh (ts'.map (candidate prefixMcpToolNames)))
  rw [suffixTool_congr sh hs]
  apply sortByKey_eq_of_perm (hs.map _)
  simpa only [map_map, comp_def, tool_suffixTool, tool_suffixNamespace, candidate] using hn

/-- The suffixes of the first retries of an identity are different. -/
def SuffixesDiffer (sha1Hex : Str → Digest) (count : ℕ) (rawIdentity : Str) : Prop :=
  ∀ i ≤ count, ∀ j ≤ count, callableNameHashSuffix sha1Hex (hashInput rawIdentity i) =
      callableNameHashSuffix sha1Hex (hashInput rawIdentity j) → i = j

section Retries

variable {sh}

theorem exists_append_hashSuffix (cn tn input : Str) :
    ∃ f, (fitCallablePartsWithHash sh cn tn input 2).1 ++
      (fitCallablePartsWithHash sh cn tn input 2).2 = f ++ callableNameHashSuffix sh input := by
  rw [fitCallablePartsWithHash]
  split
  · exact ⟨_, (append_assoc ..).symm⟩
  · exact ⟨_, rfl⟩

theorem used_of_retry_eq_none (hle : a + rs ≤ u32Max + 1) (h : retry sh cn tn ri un 2 rs a = none) :
    ∀ k < rs, (fitCallablePartsWithHash sh cn tn (hashInput ri (a + k)) 2).1 ++
      (fitCallablePartsWithHash sh cn tn (hashInput ri (a + k)) 2).2 ∈ un := by
  induction rs generalizing a with
  | zero => simp
  | succ rs ih =>
    rw [retry] at h
    split at h
    · rename_i hu
      intro k hk
      cases k with
      | zero => exact hu
      | succ k =>
        by_cases hls : rs = 0
        · omega
        · rw [Nat.min_eq_left (by omega)] at h
          have hl := ih (by omega) h k (by omega)
          rwa [Nat.add_right_comm] at hl
    · cases h

/-- The loop comes to an end after as many rounds as there are names to avoid. -/
theorem retry_ne_none (hr : un.length < rs) (hle : rs ≤ u32Max + 1)
    (hdf : SuffixesDiffer sh (rs - 1) ri) : retry sh cn tn ri un 2 rs 0 ≠ none := by
  intro hnn
  let n : ℕ → Str := fun a =>
    (fitCallablePartsWithHash sh cn tn (hashInput ri a) 2).1 ++
    (fitCallablePartsWithHash sh cn tn (hashInput ri a) 2).2
  have hu : ∀ k < rs, n k ∈ un := by
    intro k hk
    have hm := used_of_retry_eq_none (by omega) hnn k hk
    rwa [Nat.zero_add] at hm
  have hd : ((List.range rs).map n).Nodup := by
    refine List.Nodup.map_on ?_ nodup_range
    intro i hi j hj heq
    rw [mem_range] at hi hj
    obtain ⟨f, hf⟩ := exists_append_hashSuffix cn tn (hashInput ri i)
    obtain ⟨f', hf'⟩ := exists_append_hashSuffix cn tn (hashInput ri j)
    have hn : f ++ callableNameHashSuffix sh (hashInput ri i) =
        f' ++ callableNameHashSuffix sh (hashInput ri j) := by
      rw [← hf, ← hf']
      exact heq
    have hsf := (append_inj' hn (by rw [length_hashSuffix, length_hashSuffix])).2
    exact hdf i (by omega) j (by omega) hsf
  have hs : (List.range rs).map n ⊆ un := by
    intro text ht
    obtain ⟨k, hk, rfl⟩ := mem_map.mp ht
    exact hu k (mem_range.mp hk)
  have hl := (hd.subperm hs).length_le
  rw [length_map, length_range] at hl
  omega

theorem nameTools_ne_none (hr : un.length + cs.length < rs) (hle : rs ≤ u32Max + 1)
    (hdf : ∀ c ∈ cs, SuffixesDiffer sh (rs - 1) c.tool.rawToolIdentity) :
    nameTools sh rs un cs ≠ none := by
  induction cs generalizing un with
  | nil => simp [nameTools]
  | cons c r ih =>
    rw [length_cons] at hr
    have hrt : retry sh c.callableNamespace c.callableName c.tool.rawToolIdentity un
        2 rs 0 ≠ none :=
      retry_ne_none (by omega) hle (hdf c mem_cons_self)
    have hp : uniqueCallableParts sh rs c.callableNamespace c.callableName
        c.tool.rawToolIdentity un mcpToolNameDelimiter.length ≠ none := by
      rw [uniqueCallableParts]
      split
      · simp
      · exact hrt
    obtain ⟨ps, hp⟩ := Option.ne_none_iff_exists'.mp hp
    have hrs : nameTools sh rs ((ps.1 ++ ps.2) :: un) r ≠ none := by
      apply ih
      · rw [length_cons]
        omega
      · exact fun d hd => hdf d (mem_cons_of_mem c hd)
    obtain ⟨shown, hs⟩ := Option.ne_none_iff_exists'.mp hrs
    rw [nameTools, hp, Option.bind_eq_bind, Option.bind_some, hs]
    simp

end Retries

/-- The normalisation returns if no identity runs out of suffixes. -/
theorem exists_returns (hl : tools.length ≤ u32Max)
    (hd : ∀ t ∈ tools, SuffixesDiffer sh tools.length t.rawToolIdentity) (pns : Bool) :
    ∃ mts, Returns sh tools pns mts := by
  have ht := map_tool_candidates sh tools pns
  have hk : (keptTools tools).Perm (skipDuplicated [] tools) := perm_insertionSort _ _
  have hs := skipDuplicated_sublist [] tools
  have hcn : (candidates sh tools pns).length ≤ tools.length := by
    rw [← length_map, ht, hk.length_eq]
    exact hs.length_le
  have hn : nameTools sh (tools.length + 1) [] (candidates sh tools pns) ≠ none := by
    apply nameTools_ne_none
    · rw [length_nil]
      omega
    · omega
    · intro c hc
      have hmm : c.tool ∈ keptTools tools := ht ▸ mem_map_of_mem hc
      exact hd c.tool (hs.subset (hk.mem_iff.mp hmm))
  obtain ⟨mts, hm⟩ := Option.ne_none_iff_exists'.mp hn
  exact ⟨mts, tools.length + 1, hm⟩

/-- Whenever the normalisation returns: it keeps the first tool of each raw identity and changes
only its callable names; the names are different, of letters, digits and underscores, and with the
delimiter of at most 64 bytes; and the order of the input does not matter. -/
theorem tool_names_normalized (sha1Hex : Str → Digest) (tools : List ToolInfo)
    (prefixMcpToolNames : Bool) (modelTools : List ToolInfo)
    (h : Returns sha1Hex tools prefixMcpToolNames modelTools) :
    List.Forall₂ SameTool (keptTools tools) modelTools ∧
    ((keptTools tools).map ToolInfo.rawToolIdentity).Nodup ∧
    (∀ identity, identity ∈ (keptTools tools).map ToolInfo.rawToolIdentity ↔
      identity ∈ tools.map ToolInfo.rawToolIdentity) ∧ (∀ tool ∈ keptTools tools, tool ∈ tools) ∧
    (modelTools.map ToolInfo.modelName).Nodup ∧
    (∀ tool ∈ modelTools, NameText tool.modelName ∧ byteLen tool.modelName + 2 ≤ 64) ∧
    ∀ tools' modelTools', tools.Perm tools' → (tools.map ToolInfo.rawToolIdentity).Nodup →
      Returns sha1Hex tools' prefixMcpToolNames modelTools' →
      keptTools tools' = keptTools tools ∧ modelTools' = modelTools := by
  obtain ⟨rns, hr⟩ := h
  have ht := nameTexts_candidates sha1Hex tools prefixMcpToolNames
  obtain ⟨hs, hn, ha⟩ := nameTools_spec ht hr
  rw [map_tool_candidates] at hs
  have hk : (keptTools tools).Perm (skipDuplicated [] tools) := perm_insertionSort _ _
  refine ⟨hs, ?_, ?_, ?_, hn, ?_, ?_⟩
  · exact (hk.map _).nodup_iff.mpr (nodup_skipDuplicated [] tools)
  · intro identity
    rw [(hk.map ToolInfo.rawToolIdentity).mem_iff, mem_skipDuplicated]
    simp
  · intro tool hm
    exact (skipDuplicated_sublist [] tools).subset (mem_sortByKey.mp hm)
  · intro tool hm
    exact ⟨(ha tool hm).2.text, (ha tool hm).2.length⟩
  · rintro tools' modelTools' hp hd ⟨rns', hr'⟩
    have hc := candidates_congr sha1Hex hp hd prefixMcpToolNames
    constructor
    · rw [← map_tool_candidates, ← hc, map_tool_candidates]
    · rw [normalizeToolsForModelWithPrefix, ← hc] at hr'
      have hmr := nameTools_mono (Nat.le_max_left rns rns') hr
      have hmr' := nameTools_mono (Nat.le_max_right rns rns') hr'
      exact Option.some.inj (hmr'.symm.trans hmr)

end Texts

theorem hex_replicate (h : d ∈ "0123456789abcdef".toList) :
    ∀ c ∈ List.replicate 40 d, c ∈ "0123456789abcdef".toList := by
  intro c hc
  rw [eq_of_mem_replicate hc]
  exact h

/-- A hash that tells apart little: it only knows whether the character codes add up to an even
number. -/
def parityHash (s : Str) : Digest :=
  if (s.map Char.toNat).sum % 2 = 0 then ⟨List.replicate 40 '0', rfl, hex_replicate (by decide)⟩
  else ⟨List.replicate 40 '1', rfl, hex_replicate (by decide)⟩

theorem tool_names_normalized_colliding :
    let spaced : ToolInfo := ⟨"docs", "search", "a b", "search", none⟩
    let s : ToolInfo := ⟨"docs", "search", "a_b", "search", none⟩
    let shown : List ToolInfo :=
      [{ spaced with callableNamespace := "mcp__a_b_000000000000" },
        { s with callableNamespace := "mcp__a_b_111111111111" }]
    Returns parityHash [s, spaced, s] true shown ∧
    (shown.map ToolInfo.modelName).Nodup ∧
    ∀ tool ∈ shown, NameText tool.modelName ∧ byteLen tool.modelName + 2 ≤ 64 := by
  intro spaced s shown
  have hr : Returns parityHash [s, spaced, s] true shown := ⟨1, by decide⟩
  obtain ⟨_, _, _, _, hn, ht, _⟩ := tool_names_normalized parityHash [s, spaced, s] true shown hr
  exact ⟨hr, hn, ht⟩

/-- A hash of the last character, which tells apart the attempts and not the tools. -/
def lastHash (s : Str) : Digest :=
  let d := if s.getLast? = some '1' then '1' else if s.getLast? = some '2' then '2' else '0'
  ⟨List.replicate 40 d, rfl, hex_replicate (by grind)⟩

/-- Both names are cut to the same text, so that the second one takes another round. -/
theorem exists_returns_two_tools :
    let tool (c : Char) : ToolInfo := ⟨"docs", List.replicate 60 'a' ++ [c], "a", "search", none⟩
    normalizeToolsForModelWithPrefix lastHash 1 [tool 'b', tool 'c'] true = none ∧
      ∃ shown, Returns lastHash [tool 'b', tool 'c'] true shown := by
  refine ⟨by decide +kernel, exists_returns lastHash (by decide) ?_ true⟩
  unfold SuffixesDiffer
  decide +kernel

end ToolNames
