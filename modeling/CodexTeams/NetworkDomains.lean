import CodexTeams.ContextualMessages
import CodexTeams.Glob
import Mathlib

/-! Patterns for the domains that the network proxy lets through or blocks. The globs that are
enforced come from the normal form of a pattern, and constraints are checked on what another parser
makes of it. What the libraries make of addresses is a parameter. -/
namespace NetworkDomains

open RustStr ContextualMessages Glob Glob.Expansion Function

/-- What the standard library takes for an address, and how the url library shows a host. -/
structure HostTools where
  isIpAddr : Str → Bool
  parseUrlHost : Str → Option Str

def asciiLower (s : Str) : Str := s.map Char.toLower

def trimEndDots (s : Str) : Str := s.rdropWhile (· == '.')

section Reading

variable (tools : HostTools)

/-- An address with a scope behind the delimiter, with the scope behind a percent sign. -/
def scopedIp (host delimiter : Str) : Option Str :=
  match splitOnce delimiter host with
  | some (ip, scope) => if tools.isIpAddr ip then some (ip ++ '%' :: scope) else none
  | none => none

variable (host : Str)

def normalizeIpLiteral : Option Str :=
  if tools.isIpAddr host then some host
  else ["%25".toList, "%".toList].findSome? (scopedIp tools host)

def normalizeDnsHostOrIpLiteral : Str :=
  let host := trimEndDots (asciiLower host)
  (normalizeIpLiteral tools host).getD host

/-- What stands between the bracket a host starts with and the first one that closes. -/
def bracketed : Str → Option Str
  | '[' :: rest => (splitOnce [']'] rest).map Prod.fst
  | _ => none

def normalizeHost : Str :=
  let host := trim host
  match bracketed host with
  | some inside => normalizeDnsHostOrIpLiteral tools inside
  | none =>
    if host.count ':' = 1 then normalizeDnsHostOrIpLiteral tools (host.takeWhile (· ≠ ':'))
    else normalizeDnsHostOrIpLiteral tools host

def apexMark : Str := ['*', '*', '.']

def subdomainMark : Str := ['*', '.']

def normalizePattern (pattern : Str) : Str :=
  let pattern := trim pattern
  if pattern = ['*'] then ['*']
  else match stripPrefix pattern apexMark with
    | some domain => apexMark ++ normalizeHost tools domain
    | none =>
      match stripPrefix pattern subdomainMark with
      | some domain => subdomainMark ++ normalizeHost tools domain
      | none => normalizeHost tools pattern

end Reading

inductive DomainPattern
  | apexAndSubdomains (domain : Str)
  | subdomainsOnly (domain : Str)
  | exact (domain : Str)
  deriving DecidableEq, Repr

namespace DomainPattern

def parseDomain (domain : Str) (build : Str → DomainPattern) : DomainPattern :=
  if trim domain = [] then .exact [] else build (trim domain)

def parse (input : Str) : DomainPattern :=
  let input := trim input
  if input = [] then .exact []
  else match stripPrefix input apexMark with
    | some domain => parseDomain domain .apexAndSubdomains
    | none =>
      match stripPrefix input subdomainMark with
      | some domain => parseDomain domain .subdomainsOnly
      | none => .exact input

end DomainPattern

/-- A domain with wildcards or a percent sign is kept as it is; what is no host is empty. -/
def parseDomainForConstraints (tools : HostTools) (domain : Str) : Str :=
  let domain := trimEndDots (trim domain)
  if domain = [] then []
  else
    let host := if domain.head? = some '[' ∧ domain.getLast? = some ']' then
      (domain.drop 1).dropLast else domain
    if '*' ∈ host ∨ '?' ∈ host ∨ '%' ∈ host then domain
    else (tools.parseUrlHost host).getD []

def normalizeDomain (domain : Str) : Str := asciiLower (trimEndDots domain)

def domainEq (left right : Str) : Bool := normalizeDomain left == normalizeDomain right

def isSubdomainOrEqual (child parent : Str) : Bool :=
  normalizeDomain child == normalizeDomain parent ||
    endsWith (normalizeDomain child) ('.' :: normalizeDomain parent)

def isStrictSubdomain (child parent : Str) : Bool :=
  normalizeDomain child != normalizeDomain parent &&
    endsWith (normalizeDomain child) ('.' :: normalizeDomain parent)

namespace DomainPattern

def parseForConstraints (tools : HostTools) (input : Str) : DomainPattern :=
  let input := trim input
  if input = [] then .exact []
  else match stripPrefix input apexMark with
    | some domain => .apexAndSubdomains (parseDomainForConstraints tools domain)
    | none =>
      match stripPrefix input subdomainMark with
      | some domain => .subdomainsOnly (parseDomainForConstraints tools domain)
      | none => .exact (parseDomainForConstraints tools input)

def allows : DomainPattern → DomainPattern → Bool
  | .exact domain, .exact candidate => domainEq candidate domain
  | .exact _, _ => false
  | .subdomainsOnly domain, .exact candidate => isStrictSubdomain candidate domain
  | .subdomainsOnly domain, .subdomainsOnly candidate => isSubdomainOrEqual candidate domain
  | .subdomainsOnly domain, .apexAndSubdomains candidate => isStrictSubdomain candidate domain
  | .apexAndSubdomains domain, .exact candidate => isSubdomainOrEqual candidate domain
  | .apexAndSubdomains domain, .subdomainsOnly candidate => isSubdomainOrEqual candidate domain
  | .apexAndSubdomains domain, .apexAndSubdomains candidate => isSubdomainOrEqual candidate domain

end DomainPattern

def subdomainGlob (domain : Str) : Str := '?' :: '*' :: '.' :: domain

def expandDomainPattern (pattern : Str) : List Str :=
  match DomainPattern.parse pattern with
  | .exact domain => [domain]
  | .subdomainsOnly domain => [subdomainGlob domain]
  | .apexAndSubdomains domain => [domain, subdomainGlob domain]

def enforcedGlobs (tools : HostTools) (entry : Str) : List Str :=
  expandDomainPattern (normalizePattern tools entry)

def isGlobalWildcardDomainPattern (tools : HostTools) (pattern : Str) : Bool :=
  (enforcedGlobs tools pattern).any (· == ['*'])

inductive GlobalWildcard
  | allow
  | reject
  deriving DecidableEq, Repr

abbrev GlobSet := List Glob.Expansion

def caseVariants (c : Char) : List Char := [c, c.toLower, c.toUpper]

def GlobSet.isMatch (set : GlobSet) (host : Str) : Bool :=
  set.any fun glob => glob.matchesText caseVariants host

def globalWildcardMessage : Str :=
  ("unsupported global wildcard domain pattern \"*\"; use exact hosts or scoped wildcards like " ++
    "*.example.com or **.example.com").toList

def addCandidates (seen : List Str) (set : GlobSet) : List Str → Except Str (List Str × GlobSet)
  | [] => .ok (seen, set)
  | candidate :: rest =>
    if candidate ∈ seen then addCandidates seen set rest
    else match Glob.compile candidate with
      | none => .error ("invalid glob pattern: " ++ candidate)
      | some glob => addCandidates (seen ++ [candidate]) (set ++ [glob]) rest

variable (tools : HostTools)

def addPatterns (globalWildcard : GlobalWildcard) (seen : List Str)
    (set : GlobSet) : List Str → Except Str (List Str × GlobSet)
  | [] => .ok (seen, set)
  | pattern :: rest =>
    if globalWildcard = .reject ∧ isGlobalWildcardDomainPattern tools pattern then
      .error globalWildcardMessage
    else match addCandidates seen set (enforcedGlobs tools pattern) with
      | .error message => .error message
      | .ok (seen, set) => addPatterns globalWildcard seen set rest

variable (patterns : List Str)

def compileGlobsetWithPolicy (globalWildcard : GlobalWildcard) : Except Str GlobSet :=
  match addPatterns tools globalWildcard [] [] patterns with
  | .error message => .error message
  | .ok (_, set) => .ok set

def compileAllowlistGlobset : Except Str GlobSet :=
  compileGlobsetWithPolicy tools patterns .allow

def compileDenylistGlobset : Except Str GlobSet :=
  compileGlobsetWithPolicy tools patterns .reject

section Compilation

/-- The set has the globs of the texts that were seen, and no others. -/
structure Compiled (seen : List Str) (set : GlobSet) : Prop where
  complete : ∀ text ∈ seen, ∃ glob ∈ set, Glob.compile text = some glob
  sound : ∀ glob ∈ set, ∃ text ∈ seen, Glob.compile text = some glob

variable {set : GlobSet}

theorem compiled_concat (h : Compiled s set) (hg : Glob.compile t = some g) :
    Compiled (s ++ [t]) (set ++ [g]) := by
  constructor
  · intro o ho
    rcases List.mem_append.mp ho with ho | ho
    · obtain ⟨f, hf, hc⟩ := h.complete o ho
      exact ⟨f, List.mem_append_left _ hf, hc⟩
    · rw [List.mem_singleton.mp ho]
      exact ⟨g, List.mem_append_right _ (List.mem_singleton_self g), hg⟩
  · intro o ho
    rcases List.mem_append.mp ho with ho | ho
    · obtain ⟨f, hf, hc⟩ := h.sound o ho
      exact ⟨f, List.mem_append_left _ hf, hc⟩
    · rw [List.mem_singleton.mp ho]
      exact ⟨t, List.mem_append_right _ (List.mem_singleton_self t), hg⟩

theorem addCandidates_spec (hc : Compiled s set)
    (h : addCandidates s set candidates = .ok (s', set')) :
    Compiled s' set' ∧ ∀ t, t ∈ s' ↔ t ∈ s ∨ t ∈ candidates := by
  induction candidates generalizing s set with
  | nil =>
    cases h
    exact ⟨hc, by simp⟩
  | cons candidate r ih =>
    rw [addCandidates] at h
    by_cases hs : candidate ∈ s
    · rw [if_pos hs] at h
      obtain ⟨hc', hm⟩ := ih hc h
      refine ⟨hc', ?_⟩
      intro t
      rw [hm, List.mem_cons]
      constructor
      · rintro (ht | ht)
        · exact .inl ht
        · exact .inr (.inr ht)
      · rintro (ht | rfl | ht)
        · exact .inl ht
        · exact .inl hs
        · exact .inr ht
    · rw [if_neg hs] at h
      cases hg : compile candidate with rw [hg] at h
      | none => cases h
      | some g =>
        obtain ⟨hc', hm⟩ := ih (compiled_concat hc hg) h
        refine ⟨hc', ?_⟩
        intro t
        rw [hm, List.mem_append, List.mem_singleton, List.mem_cons, or_assoc]

theorem addPatterns_spec (hc : Compiled s set) (h : addPatterns ts gw s set ps = .ok (s', set')) :
    Compiled s' set' ∧ ∀ t, t ∈ s' ↔ t ∈ s ∨ ∃ entry ∈ ps, t ∈ enforcedGlobs ts entry := by
  induction ps generalizing s set with
  | nil =>
    cases h
    exact ⟨hc, by simp⟩
  | cons p r ih =>
    rw [addPatterns] at h
    split at h
    · cases h
    · cases ha : addCandidates s set (enforcedGlobs ts p) with
      | error message =>
        rw [ha] at h
        cases h
      | ok a =>
        rw [ha] at h
        obtain ⟨hmd, hm⟩ := addCandidates_spec hc ha
        obtain ⟨hl, hmm⟩ := ih hmd h
        refine ⟨hl, ?_⟩
        intro t
        simp only [hmm, hm, List.mem_cons, exists_eq_or_imp, or_assoc]

section

variable (h : compileGlobsetWithPolicy ts ps gw = .ok set)

include h

theorem compiled_of_ok :
    ∃ s, Compiled s set ∧ ∀ t, t ∈ s ↔ ∃ entry ∈ ps, t ∈ enforcedGlobs ts entry := by
  rw [compileGlobsetWithPolicy] at h
  cases ha : addPatterns ts gw [] [] ps with
  | error message =>
    rw [ha] at h
    cases h
  | ok a =>
    obtain ⟨s, f⟩ := a
    rw [ha] at h
    cases h
    have hs : Compiled [] [] := ⟨by simp, by simp⟩
    obtain ⟨hc, hm⟩ := addPatterns_spec hs ha
    refine ⟨s, hc, ?_⟩
    intro t
    rw [hm, List.mem_nil_iff, false_or]

theorem isMatch_iff (host : Str) : set.isMatch host = true ↔ ∃ e ∈ ps, ∃ t ∈ enforcedGlobs ts e,
      ∃ g, Glob.compile t = some g ∧ g.matchesText caseVariants host = true := by
  obtain ⟨s, hcm, hmm⟩ := compiled_of_ok h
  rw [GlobSet.isMatch, List.any_eq_true]
  constructor
  · rintro ⟨g, hg, hm⟩
    obtain ⟨t, ht, hc⟩ := hcm.sound g hg
    obtain ⟨e, he, hen⟩ := (hmm t).mp ht
    exact ⟨e, he, t, hen, g, hc, hm⟩
  · rintro ⟨e, he, t, ht, g, hc, hm⟩
    have hsn := (hmm t).mpr ⟨e, he, ht⟩
    obtain ⟨o, ho, hs⟩ := hcm.complete t hsn
    rw [hc] at hs
    cases hs
    exact ⟨g, ho, hm⟩

theorem exists_compile (he : e ∈ ps)
    (ht : t ∈ enforcedGlobs ts e) : ∃ glob, Glob.compile t = some glob := by
  obtain ⟨s, hc, hm⟩ := compiled_of_ok h
  obtain ⟨glob, -, hg⟩ := hc.complete t ((hm t).mpr ⟨e, he, ht⟩)
  exact ⟨glob, hg⟩

end

/-- One glob is the other, or ends in the domain whose subdomains the other is for, after
something that is not nothing. -/
def Within (narrow wide : Str) : Prop :=
  narrow = wide ∨ ∃ front domain, narrow = front ++ '.' :: domain ∧ wide = subdomainGlob domain ∧
    Glob.NonEmptyGlob caseVariants front

theorem Within.matches (h : Within n w) (hn : Glob.compile n = some ng)
    (hw : Glob.compile w = some wg) (hm : ng.matchesText caseVariants host = true) :
    wg.matchesText caseVariants host = true := by
  rcases h with rfl | ⟨f, dm, rfl, rfl, hf⟩
  · rw [hn] at hw
    cases hw
    exact hm
  · exact matches_subdomains hf hn hw hm

end Compilation

section Case

theorem toLower_eq_iff {x : Char} (hx : x.isAlpha = false) : c.toLower = x ↔ c = x := by
  constructor
  · intro h
    have ha : c.isAlpha = false := by rw [← Char.isAlpha_toLower_eq_isAlpha, h, hx]
    have hu : ¬ c.isUpper = true := by
      intro hu
      rw [Char.isAlpha, hu] at ha
      cases ha
    rw [← Char.toLower_eq_of_not_isUpper hu]
    exact h
  · rintro rfl
    apply Char.toLower_eq_of_not_isUpper
    intro hu
    rw [Char.isAlpha, hu] at hx
    cases hx

theorem isAlpha_of_isWhitespace (h : isWhitespace c = true) : c.isAlpha = false := by
  rw [← Bool.not_eq_true]
  intro ha
  simp only [isWhitespace, Bool.or_eq_true, Bool.and_eq_true, decide_eq_true_eq, beq_iff_eq,
    UInt32.le_iff_toNat_le, ← UInt32.toNat_inj] at h
  simp only [Char.isAlpha, Char.isUpper, Char.isLower, Bool.or_eq_true, Bool.and_eq_true,
    decide_eq_true_eq] at ha
  simp only [UInt32.toNat_ofNat] at h
  have hb : (65 ≤ c.val.toNat ∧ c.val.toNat ≤ 90) ∨ (97 ≤ c.val.toNat ∧ c.val.toNat ≤ 122) := ha
  omega

theorem isWhitespace_toLower (c : Char) : isWhitespace c.toLower = isWhitespace c := by
  rw [Bool.eq_iff_iff]
  constructor
  · intro h
    rwa [← (toLower_eq_iff (isAlpha_of_isWhitespace h)).mp rfl] at h
  · intro h
    rwa [(toLower_eq_iff (isAlpha_of_isWhitespace h)).mpr rfl]

@[simp] theorem asciiLower_asciiLower (s : Str) : asciiLower (asciiLower s) = asciiLower s := by
  simp [asciiLower, comp_def]

theorem trim_asciiLower (s : Str) : trim (asciiLower s) = asciiLower (trim s) := by
  have hs : ∀ t : Str, trimStart (asciiLower t) = asciiLower (trimStart t) := by
    intro t
    simp [trimStart, asciiLower, List.dropWhile_map, comp_def, isWhitespace_toLower]
  have he : ∀ t : Str, trimEnd (asciiLower t) = asciiLower (trimEnd t) := by
    intro t
    simp [trimEnd, asciiLower, List.rdropWhile, ← List.map_reverse, List.dropWhile_map,
      comp_def, isWhitespace_toLower]
  rw [trim, hs, he, trim]

def noLetters (text : Str) : Bool := text.all fun c => !c.isAlpha

theorem asciiLower_eq_iff {text : Str} (ht : noLetters text = true) :
    asciiLower s = text ↔ s = text := by
  induction text generalizing s with
  | nil => exact List.map_eq_nil_iff
  | cons x text ih =>
    rw [noLetters, List.all_cons, Bool.and_eq_true, Bool.not_eq_true'] at ht
    have hr := ih (s := s.tail) ht.2
    cases s with
    | nil => simp [asciiLower]
    | cons c s =>
      have hx := toLower_eq_iff (c := c) ht.1
      simp only [List.tail_cons, asciiLower, List.map_cons, List.cons.injEq] at hr ⊢
      rw [hx, hr]

theorem stripPrefix_asciiLower (hp : noLetters pre = true) (s : Str) :
    stripPrefix (asciiLower s) pre = (stripPrefix s pre).map asciiLower := by
  apply Option.ext
  intro r
  rw [stripPrefix_eq_some, Option.map_eq_some_iff]
  constructor
  · intro h
    obtain ⟨f, b, rfl, hf, hb⟩ := List.map_eq_append_iff.mp h
    have hs : f = pre := (asciiLower_eq_iff hp).mp hf
    exact ⟨b, stripPrefix_eq_some.mpr (by rw [hs]), hb⟩
  · rintro ⟨b, hb, rfl⟩
    rw [stripPrefix_eq_some.mp hb]
    have hs : asciiLower pre = pre := (asciiLower_eq_iff hp).mpr rfl
    simp only [asciiLower, List.map_append] at hs ⊢
    rw [hs]

theorem splitOnce_bracket (s : Str) : splitOnce [']'] (asciiLower s) =
      (splitOnce [']'] s).map fun ps => (asciiLower ps.1, asciiLower ps.2) := by
  induction s with
  | nil => rfl
  | cons c s ih =>
    have hc : c.toLower = ']' ↔ c = ']' := toLower_eq_iff (by decide)
    have hs : ∀ (x : Char) (t : Str), startsWith (x :: t) [']'] = (']' == x) := by
      intro x t
      simp [startsWith, List.isPrefixOf]
    simp only [asciiLower, List.map_cons, splitOnce, hs] at ih ⊢
    by_cases hb : c = ']'
    · subst hb
      rfl
    · have hl : ¬ c.toLower = ']' := fun h => hb (hc.mp h)
      have hn : (']' == c) = false := by simpa using Ne.symm hb
      have hn' : (']' == c.toLower) = false := by simpa using Ne.symm hl
      simp only [hn, hn', Bool.false_eq_true, if_false, ih, Option.map_map]
      rfl

theorem bracketed_asciiLower (s : Str) :
    bracketed (asciiLower s) = (bracketed s).map asciiLower := by
  cases s with
  | nil => rfl
  | cons c s =>
    have hc : c.toLower = '[' ↔ c = '[' := toLower_eq_iff (by decide)
    by_cases hb : c = '['
    · subst hb
      have hs := splitOnce_bracket s
      simp only [asciiLower] at hs ⊢
      change (splitOnce [']'] _).map Prod.fst = ((splitOnce [']'] s).map Prod.fst).map _
      rw [hs, Option.map_map, Option.map_map]
      rfl
    · have hl : ¬ c.toLower = '[' := fun h => hb (hc.mp h)
      rw [bracketed, bracketed]
      · rfl
      · intro r h
        exact hb (List.cons.inj h).1
      · intro r h
        exact hl (List.cons.inj h).1

variable (ts : HostTools)

theorem normalizeDns_asciiLower (s : Str) :
    normalizeDnsHostOrIpLiteral ts (asciiLower s) = normalizeDnsHostOrIpLiteral ts s := by
  simp only [normalizeDnsHostOrIpLiteral, asciiLower_asciiLower]

theorem normalizeHost_asciiLower (s : Str) :
    normalizeHost ts (asciiLower s) = normalizeHost ts s := by
  have hc : ∀ c : Char, c.toLower = ':' ↔ c = ':' := fun c => toLower_eq_iff (by decide)
  have hcn : (asciiLower (trim s)).count ':' = (trim s).count ':' := by
    rw [List.count_eq_countP, asciiLower, List.countP_map]
    congr 1
    funext c
    simp [hc]
  have ht : (asciiLower (trim s)).takeWhile (· ≠ ':') =
      asciiLower ((trim s).takeWhile (· ≠ ':')) := by
    rw [asciiLower, List.takeWhile_map]
    congr 2
    funext c
    simp [hc]
  simp only [normalizeHost, trim_asciiLower, bracketed_asciiLower, hcn, ht, normalizeDns_asciiLower]
  cases bracketed (trim s) with
  | none => rfl
  | some i => exact normalizeDns_asciiLower ts i

theorem normalizePattern_asciiLower (s : Str) :
    normalizePattern ts (asciiLower s) = normalizePattern ts s := by
  have hs : asciiLower (trim s) = ['*'] ↔ trim s = ['*'] := asciiLower_eq_iff rfl
  have hm : noLetters apexMark = true := rfl
  have hm' : noLetters subdomainMark = true := rfl
  have ha := stripPrefix_asciiLower hm (trim s)
  have hsb := stripPrefix_asciiLower hm' (trim s)
  simp only [normalizePattern, trim_asciiLower, hs, ha, hsb]
  split
  · rfl
  cases stripPrefix (trim s) apexMark with
  | some dm => exact congrArg (apexMark ++ ·) (normalizeHost_asciiLower ts dm)
  | none =>
    cases stripPrefix (trim s) subdomainMark with
    | some dm => exact congrArg (subdomainMark ++ ·) (normalizeHost_asciiLower ts dm)
    | none =>
      have hh := normalizeHost_asciiLower ts (trim s)
      exact hh

theorem enforcedGlobs_congr (h : asciiLower e = asciiLower e') :
    enforcedGlobs ts e = enforcedGlobs ts e' := by
  rw [enforcedGlobs, ← normalizePattern_asciiLower, h, normalizePattern_asciiLower, enforcedGlobs]

end Case

section Plain

def Lower (text : Str) : Prop := ∀ c ∈ text, c.toLower = c

theorem Lower.subset (h : Lower t) (hp : part ⊆ t) : Lower part := fun c hc => h c (hp hc)

theorem Lower.append (hf : Lower f) (hb : Lower b) : Lower (f ++ b) := by
  intro c hc
  rcases List.mem_append.mp hc with hc | hc
  · exact hf c hc
  · exact hb c hc

theorem splitOnce_subset (h : splitOnce pat s = some (f, b)) : f ⊆ s ∧ b ⊆ s := by
  induction s generalizing f b with
  | nil => cases h
  | cons c s ih =>
    rw [splitOnce] at h
    split at h
    · cases h
      exact ⟨List.nil_subset _, List.drop_subset _ _⟩
    · obtain ⟨⟨f', b'⟩, hs, heq⟩ := Option.map_eq_some_iff.mp h
      cases heq
      obtain ⟨hf, hb⟩ := ih hs
      exact ⟨List.cons_subset_cons c hf, fun x hx => List.mem_cons_of_mem c (hb hx)⟩

theorem lower_normalizeIpLiteral (hh : Lower host) (h : normalizeIpLiteral tls host = some ip) :
    Lower ip := by
  rw [normalizeIpLiteral] at h
  split at h
  · cases h
    exact hh
  · obtain ⟨d, -, hs⟩ := List.exists_of_findSome?_eq_some h
    rw [scopedIp] at hs
    cases hsp : splitOnce d host with
    | none =>
      rw [hsp] at hs
      cases hs
    | some ps =>
      rw [hsp] at hs
      obtain ⟨hf, hsc⟩ := splitOnce_subset hsp
      dsimp only at hs
      split at hs
      · cases hs
        apply (hh.subset hf).append
        intro c hc
        rcases List.mem_cons.mp hc with rfl | hc
        · rfl
        · exact hh c (hsc hc)
      · cases hs

section

variable (tls : HostTools)

theorem lower_normalizeDns (host : Str) : Lower (normalizeDnsHostOrIpLiteral tls host) := by
  have hl : Lower (trimEndDots (asciiLower host)) := by
    intro c hc
    have hm : c ∈ asciiLower host := (List.rdropWhile_prefix (· == '.') (asciiLower host)).subset hc
    obtain ⟨x, -, rfl⟩ := List.mem_map.mp hm
    exact Char.toLower_toLower_eq_toLower x
  rw [normalizeDnsHostOrIpLiteral]
  cases hip : normalizeIpLiteral tls (trimEndDots (asciiLower host)) with
  | none =>
    exact hl
  | some ip =>
    exact lower_normalizeIpLiteral hl hip

theorem lower_normalizeHost (host : Str) : Lower (normalizeHost tls host) := by
  simp only [normalizeHost]
  split
  · exact lower_normalizeDns tls _
  · split
    · exact lower_normalizeDns tls _
    · exact lower_normalizeDns tls _

theorem lower_normalizePattern (p : Str) : Lower (normalizePattern tls p) := by
  have hm : Lower apexMark := by
    intro c hc
    simp only [apexMark, List.mem_cons, List.not_mem_nil, or_false] at hc
    rcases hc with rfl | rfl | rfl <;> rfl
  have hm' : Lower subdomainMark := hm.subset (List.subset_cons_self _ _)
  simp only [normalizePattern]
  split
  · exact hm.subset (by simp [apexMark])
  · split
    · exact hm.append (lower_normalizeHost tls _)
    · split
      · exact hm'.append (lower_normalizeHost tls _)
      · exact lower_normalizeHost tls _

def DomainPattern.domain : DomainPattern → Str
  | .apexAndSubdomains domain => domain
  | .subdomainsOnly domain => domain
  | .exact domain => domain

theorem trim_subset (s : Str) : trim s ⊆ s := by
  intro c hc
  have he : c ∈ trimStart s := (List.rdropWhile_prefix isWhitespace (trimStart s)).subset hc
  exact (List.dropWhile_suffix isWhitespace).subset he

theorem domain_parse_subset (input : Str) : (DomainPattern.parse input).domain ⊆ input := by
  have hr : ∀ {pre r : Str}, stripPrefix (trim input) pre = some r → trim r ⊆ input := by
    intro pre r h c hc
    apply trim_subset input
    rw [stripPrefix_eq_some.mp h]
    exact List.mem_append_right _ (trim_subset r hc)
  simp only [DomainPattern.parse]
  split
  · exact List.nil_subset _
  · split
    · rename_i dm hd
      rw [DomainPattern.parseDomain]
      split
      · exact List.nil_subset _
      · exact hr hd
    · split
      · rename_i dm hd
        rw [DomainPattern.parseDomain]
        split
        · exact List.nil_subset _
        · exact hr hd
      · exact trim_subset input

def enforcedDomain (tools : HostTools) (entry : Str) : Str :=
  (DomainPattern.parse (normalizePattern tools entry)).domain

theorem lower_enforcedDomain (e : Str) : Lower (enforcedDomain tls e) :=
  (lower_normalizePattern tls e).subset (domain_parse_subset _)

end

theorem mem_enforcedGlobs (h : t ∈ enforcedGlobs tls e) :
    t = enforcedDomain tls e ∨ t = subdomainGlob (enforcedDomain tls e) := by
  rw [enforcedGlobs, expandDomainPattern] at h
  rw [enforcedDomain]
  cases hp : DomainPattern.parse (normalizePattern tls e) with rw [hp] at h
  | exact dm => exact .inl (List.mem_singleton.mp h)
  | subdomainsOnly dm => exact .inr (List.mem_singleton.mp h)
  | apexAndSubdomains dm => simpa [DomainPattern.domain] using h

theorem literal_matches_iff (hl : l.toLower = l) (hc : c.toLower = c) :
    (Glob.Atom.literal l).matchesChar caseVariants c = true ↔ c = l := by
  simp only [Glob.Atom.matchesChar, caseVariants, List.contains_iff_mem, List.mem_cons,
    List.not_mem_nil, or_false]
  constructor
  · rintro (h | h | h)
    · exact h.symm
    · rw [h, hc]
    · rw [← hl, h, Char.toLower_toUpper_eq_toLower, hc]
  · intro h
    exact .inl h.symm

theorem literals_match_iff (ht : Lower text) (hh : Lower host) :
    Glob.matchAtoms caseVariants (text.map .literal) host = true ↔ host = text := by
  induction text generalizing host with
  | nil => simp [matchAtoms]
  | cons l text ih =>
    have hr : Lower text := ht.subset (List.subset_cons_self l text)
    rw [List.map_cons, matchAtoms_cons_of_ne caseVariants (by simp)]
    constructor
    · rintro ⟨c, rest, rfl, hc, hm⟩
      have hl : Lower rest := hh.subset (List.subset_cons_self c rest)
      rw [(literal_matches_iff (ht l List.mem_cons_self)
        (hh c List.mem_cons_self)).mp hc, (ih hr hl).mp hm]
    · rintro rfl
      exact ⟨l, text, rfl, (literal_matches_iff (ht l List.mem_cons_self)
        (ht l List.mem_cons_self)).mpr rfl, (ih hr hr).mpr rfl⟩

def MatchedBy (text host : Str) : Prop :=
  ∃ glob, Glob.compile text = some glob ∧ glob.matchesText caseVariants host = true

variable {domain : Str}

theorem matchedBy_plain (hp : Glob.PlainGlob dm) (hd : Lower dm)
    (hh : Lower host) : MatchedBy dm host ↔ host = dm := by
  rw [MatchedBy, compile_plain hp]
  simp only [Option.some_inj, exists_eq_left', matchesText, List.any_cons,
    List.any_nil, Bool.or_false]
  exact literals_match_iff hd hh

theorem plainGlob_dot (hp : Glob.PlainGlob dm) : Glob.PlainGlob ('.' :: dm) := by
  intro c hc
  rcases List.mem_cons.mp hc with rfl | hc
  · rfl
  · exact hp c hc

theorem lower_dot (hd : Lower dm) : Lower ('.' :: dm) := by
  intro c hc
  rcases List.mem_cons.mp hc with rfl | hc
  · rfl
  · exact hd c hc

theorem matchedBy_subdomainGlob (hp : Glob.PlainGlob dm) (hd : Lower dm) (hh : Lower host) :
    MatchedBy (subdomainGlob dm) host ↔ ∃ f, f ≠ [] ∧ host = f ++ '.' :: dm := by
  have ha : compile ['?', '*'] = some [[.any, .zeroOrMore]] := rfl
  have hc := compile_append ha ('.' :: dm)
  rw [compile_plain (plainGlob_dot hp)] at hc
  have hg : MatchedBy (subdomainGlob dm) host ↔
      (product [[.any, .zeroOrMore]] [('.' :: dm).map .literal]).matchesText caseVariants
        host = true := by
    constructor
    · rintro ⟨g, hg, hm⟩
      cases hg.symm.trans hc
      exact hm
    · intro hm
      exact ⟨_, hc, hm⟩
  rw [hg, matchesText_product]
  constructor
  · rintro ⟨f, back, rfl, hf, hb⟩
    have hl : Lower back := hh.subset (List.subset_append_right f back)
    simp only [matchesText, List.any_cons, List.any_nil, Bool.or_false] at hb
    rw [literals_match_iff (lower_dot hd) hl] at hb
    refine ⟨f, ?_, by rw [hb]⟩
    rintro rfl
    cases hf
  · rintro ⟨f, hne, rfl⟩
    refine ⟨f, '.' :: dm, rfl, ?_, ?_⟩
    · cases f with
      | nil => exact absurd rfl hne
      | cons c f => simp [matchesText, matchAtoms, Glob.Atom.matchesChar]
    · simp only [matchesText, List.any_cons, List.any_nil, Bool.or_false]
      exact (literals_match_iff (lower_dot hd) (lower_dot hd)).mpr rfl

theorem nonEmptyGlob_of_not_matchedBy (hg : Glob.compile front = some g)
    (h : ¬ MatchedBy front []) : Glob.NonEmptyGlob caseVariants front := by
  refine ⟨g, hg, ?_⟩
  rw [← Bool.not_eq_true]
  intro hm
  exact h ⟨g, hg, hm⟩

theorem lower_nil : Lower [] := fun _ hc => absurd hc List.not_mem_nil

/-- The globs of plain domains: a domain, or what is below one. -/
def PlainText (text : Str) : Prop :=
  ∃ domain, Glob.PlainGlob domain ∧ Lower domain ∧ (text = domain ∨ text = subdomainGlob domain)

theorem exists_longer (ts : List Str) : ∃ n, 0 < n ∧ ∀ t ∈ ts, t.length < n := by
  induction ts with
  | nil => exact ⟨1, Nat.one_pos, by simp⟩
  | cons t ts ih =>
    obtain ⟨n, hp, hn⟩ := ih
    refine ⟨n + t.length, by omega, ?_⟩
    intro o ho
    rcases List.mem_cons.mp ho with rfl | ho
    · omega
    · have := hn o ho
      omega

theorem within_of_matchedBy (hp : Glob.PlainGlob dm) (hd : Lower dm) (hw : PlainText wide)
    (h : MatchedBy wide dm) : Within dm wide := by
  obtain ⟨o, ho, hl, rfl | rfl⟩ := hw
  · exact .inl ((matchedBy_plain ho hl hd).mp h)
  · obtain ⟨front, hne, rfl⟩ := (matchedBy_subdomainGlob ho hl hd).mp h
    have hf : Glob.PlainGlob front := fun c hc => hp c (List.mem_append_left _ hc)
    have hlw : Lower front := hd.subset (List.subset_append_left front _)
    refine .inr ⟨front, o, rfl, rfl, ?_⟩
    apply nonEmptyGlob_of_not_matchedBy (compile_plain hf)
    rw [matchedBy_plain hf hlw lower_nil]
    exact fun hn => hne hn.symm

/-- What is below a plain domain can only be matched by what is below it or a domain above it: a
name of one long part is in nothing else. -/
theorem within_of_long (hp : Glob.PlainGlob dm) (hd : Lower dm) (hw : PlainText wide)
    (hlg : wide.length < n) (h : MatchedBy wide (List.replicate n 'a' ++ '.' :: dm)) :
    Within (subdomainGlob dm) wide := by
  have hlt : Lower (List.replicate n 'a') := by
    intro c hc
    rw [List.eq_of_mem_replicate hc]
    rfl
  have hh := hlt.append (lower_dot hd)
  obtain ⟨o, ho, hl, rfl | rfl⟩ := hw
  · have heq := (matchedBy_plain ho hl hh).mp h
    have hln := congrArg List.length heq
    rw [List.length_append, List.length_replicate] at hln
    omega
  · obtain ⟨f, -, heq⟩ := (matchedBy_subdomainGlob ho hl hh).mp h
    rcases List.append_eq_append_iff.mp heq with ⟨rest, rfl, hr⟩ | ⟨rest, hr, ht⟩
    · cases rest with
      | nil =>
        cases hr
        exact .inl rfl
      | cons c rest =>
        obtain ⟨rfl, rfl⟩ := List.cons.inj hr
        have hf : Glob.PlainGlob rest := fun c hc => hp c (List.mem_append_left _ hc)
        have hlw : Lower rest := hd.subset (List.subset_append_left rest _)
        obtain ⟨g, hg, -⟩ := (matchedBy_subdomainGlob hf hlw
          (lower_dot (lower_dot hlw))).mpr ⟨['.'], by simp, rfl⟩
        refine .inr ⟨subdomainGlob rest, o, rfl, rfl, ?_⟩
        apply nonEmptyGlob_of_not_matchedBy hg
        rw [matchedBy_subdomainGlob hf hlw lower_nil]
        rintro ⟨f, -, hn⟩
        simp at hn
    · cases rest with
      | nil =>
        cases ht
        exact .inl rfl
      | cons c rest =>
        -- a dot cannot stand among the letters
        obtain ⟨rfl, -⟩ := List.cons.inj ht
        have hm : '.' ∈ List.replicate n 'a' := by
          rw [hr]
          exact List.mem_append_right _ List.mem_cons_self
        exact absurd (List.eq_of_mem_replicate hm) (by decide)

/-- For plain domains, inclusion of what is matched can be read off the texts. -/
theorem exists_within {ws : List Str} (hnr : PlainText nr) (hwd : ∀ wide ∈ ws, PlainText wide)
    (h : ∀ host, MatchedBy nr host → ∃ wide ∈ ws, MatchedBy wide host) :
    ∃ wide ∈ ws, Within nr wide := by
  obtain ⟨dm, hp, hd, rfl | rfl⟩ := hnr
  · obtain ⟨wide, hw, hm⟩ := h nr ((matchedBy_plain hp hd hd).mpr rfl)
    exact ⟨wide, hw, within_of_matchedBy hp hd (hwd wide hw) hm⟩
  · obtain ⟨n, hps, hn⟩ := exists_longer ws
    have hl : Lower (List.replicate n 'a') := by
      intro c hc
      rw [List.eq_of_mem_replicate hc]
      rfl
    have hm : MatchedBy (subdomainGlob dm) (List.replicate n 'a' ++ '.' :: dm) := by
      apply (matchedBy_subdomainGlob hp hd (hl.append (lower_dot hd))).mpr
      exact ⟨List.replicate n 'a', by simp; omega, rfl⟩
    obtain ⟨wide, hw, hm⟩ := h _ hm
    exact ⟨wide, hw, within_of_long hp hd (hwd wide hw) (hn wide hw) hm⟩

end Plain

end NetworkDomains
