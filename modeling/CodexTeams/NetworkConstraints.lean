import CodexTeams.NetworkDomains

/-! The constraints a managed configuration puts on the network proxy. The check is made on the
entries as the parser for constraints reads them, while the proxy enforces the globs of their normal
forms. -/
namespace NetworkConstraints

open RustStr NetworkDomains List DomainPattern Bool

/-- In the order in which one wins over the other. -/
inductive NetworkDomainPermission
  | none
  | allow
  | deny
  deriving DecidableEq, Repr

def NetworkDomainPermission.rank : NetworkDomainPermission → ℕ
  | .none => 0
  | .allow => 1
  | .deny => 2

structure NetworkDomainPermissionEntry where
  pattern : Str
  permission : NetworkDomainPermission
  deriving Repr

section

variable (entries : List NetworkDomainPermissionEntry)

def mergeEntry (entry : NetworkDomainPermissionEntry) : List NetworkDomainPermissionEntry :=
  if entries.any (·.pattern == entry.pattern) then
    entries.map fun known =>
      if known.pattern = entry.pattern ∧ known.permission.rank < entry.permission.rank then entry
      else known
  else entries ++ [entry]

def effectiveEntries : List NetworkDomainPermissionEntry := entries.foldl mergeEntry []

end

inductive NetworkUnixSocketPermission
  | allow
  | deny
  deriving DecidableEq, Repr

inductive NetworkMode
  | limited
  | full
  deriving Repr

def networkModeRank : NetworkMode → ℕ
  | .limited => 0
  | .full => 1

structure NetworkProxySettings (Hook : Type) where
  enabled : Bool
  allowUpstreamProxy : Bool
  dangerouslyAllowNonLoopbackProxy : Bool
  dangerouslyAllowAllUnixSockets : Bool
  mode : NetworkMode
  domains : Option (List NetworkDomainPermissionEntry)
  unixSockets : Option (List (Str × NetworkUnixSocketPermission))
  allowLocalBinding : Bool
  mitm : Bool
  mitmHooks : List Hook

structure NetworkProxyConstraints where
  enabled : Option Bool
  mode : Option NetworkMode
  allowUpstreamProxy : Option Bool
  dangerouslyAllowNonLoopbackProxy : Option Bool
  dangerouslyAllowAllUnixSockets : Option Bool
  allowedDomains : Option (List Str)
  allowlistExpansionEnabled : Option Bool
  deniedDomains : Option (List Str)
  denylistExpansionEnabled : Option Bool
  allowUnixSockets : Option (List Str)
  allowLocalBinding : Option Bool
  deriving Repr

namespace NetworkProxySettings

variable {Hook : Type} (settings : NetworkProxySettings Hook)

def domainEntries (permission : NetworkDomainPermission) : Option (List Str) :=
  (settings.domains.map fun domains =>
    ((effectiveEntries domains).filter (·.permission = permission)).map (·.pattern)).filter
      (!·.isEmpty)

def allowedDomains : Option (List Str) := settings.domainEntries .allow

def deniedDomains : Option (List Str) := settings.domainEntries .deny

def allowUnixSockets : List Str :=
  (settings.unixSockets.getD []).filterMap fun entry =>
    if entry.2 = .allow then some entry.1 else none

end NetworkProxySettings

structure NetworkProxyConstraintError where
  fieldName : Str
  candidate : Str
  allowed : Str
  deriving DecidableEq, Repr

abbrev Check := Except NetworkProxyConstraintError Unit

/-- The hooks are checked by their own validator, which gives the text of its error, and the
libraries show a mode or a list of texts for an error. -/
structure Validators (Hook : Type) where
  validateMitmHookConfig : NetworkProxySettings Hook → Option Str
  debugMode : NetworkMode → Str
  debugTexts : List Str → Str

def refuseUnless (holds : Bool) (fieldName candidate allowed : Str) : Check :=
  if holds then .ok () else .error ⟨fieldName, candidate, allowed⟩

def whenSome {α : Type} (constraint : Option α) (check : α → Check) : Check :=
  match constraint with
  | some value => check value
  | none => .ok ()

def validateSwitch (fieldName : Str) (candidate allowed : Bool) : Check :=
  refuseUnless (!(candidate && !allowed)) fieldName "true"
    "false (disabled by managed config)"

variable (tools : HostTools)

def validateNonGlobalWildcardDomainPatterns (fieldName : Str) (patterns : List Str) : Check :=
  match patterns.find? (isGlobalWildcardDomainPattern tools) with
  | some pattern => .error ⟨fieldName, trim pattern,
      "exact hosts or scoped wildcards like *.example.com or **.example.com"⟩
  | none => .ok ()

def sameTexts (first second : List Str) : Bool :=
  first.all (second.contains ·) && second.all (first.contains ·)

section Validation

variable {Hook : Type} (tools : HostTools) (validators : Validators Hook)

def allowedDomainsField : Str := "network.allowed_domains"

def deniedDomainsField : Str := "network.denied_domains"

/-- With expansion on, managed entries must stay unless they are denied; with expansion off
nothing may be added either; by default each entry must be covered by a managed one. -/
def validateAllowedDomains (candidate denied managed : List Str) (expansion : Option Bool) :
    Check :=
  let candidateSet := candidate.map asciiLower
  let deniedOverrides := denied.map asciiLower
  let requiredSet := managed.map asciiLower
  match expansion with
  | some true =>
    let missing := requiredSet.filter fun entry =>
      !candidateSet.contains entry && !deniedOverrides.contains entry
    refuseUnless missing.isEmpty allowedDomainsField
      "missing managed allowed_domains entries" (validators.debugTexts missing)
  | some false =>
    let expectedSet := requiredSet.filter fun entry => !deniedOverrides.contains entry
    refuseUnless (sameTexts candidateSet expectedSet) allowedDomainsField
      (validators.debugTexts candidate) "must match managed allowed_domains"
  | none =>
    let managedPatterns := managed.map (DomainPattern.parseForConstraints tools)
    let invalid := candidate.filter fun entry =>
      !managedPatterns.any fun managed =>
        managed.allows (DomainPattern.parseForConstraints tools entry)
    refuseUnless invalid.isEmpty allowedDomainsField (validators.debugTexts invalid)
      "subset of managed allowed_domains"

variable (candidate managed : List Str)

def validateDeniedDomains (expansion : Option Bool) : Check :=
  let candidateSet := candidate.map asciiLower
  let requiredSet := managed.map asciiLower
  match expansion with
  | some false =>
    refuseUnless (sameTexts candidateSet requiredSet) deniedDomainsField
      (validators.debugTexts candidate) "must match managed denied_domains"
  | _ =>
    let missing := requiredSet.filter fun entry => !candidateSet.contains entry
    refuseUnless missing.isEmpty deniedDomainsField
      "missing managed denied_domains entries" (validators.debugTexts missing)

def validateUnixSockets : Check :=
  let allowedSet := managed.map asciiLower
  let invalid := candidate.filter fun entry => !allowedSet.contains (asciiLower entry)
  refuseUnless invalid.isEmpty "network.allow_unix_sockets"
    (validators.debugTexts invalid) "subset of managed allow_unix_sockets"

variable (settings : NetworkProxySettings Hook)

def validateMitmHooks : Check :=
  match validators.validateMitmHookConfig settings with
  | some message => .error ⟨"network.mitm_hooks", message,
      "valid MITM hook configuration"⟩
  | none => .ok ()

def validateMode (candidate : NetworkMode) (managed : Option NetworkMode) : Check :=
  whenSome managed fun maxMode =>
    refuseUnless (networkModeRank candidate ≤ networkModeRank maxMode) "network.mode"
      (validators.debugMode candidate)
      (validators.debugMode maxMode ++ " or more restrictive")

def validatePolicyAgainstConstraints
    (constraints : NetworkProxyConstraints) : Check := do
  let configAllowedDomains := settings.allowedDomains.getD []
  let configDeniedDomains := settings.deniedDomains.getD []
  validateMitmHooks validators settings
  validateNonGlobalWildcardDomainPatterns tools deniedDomainsField configDeniedDomains
  validateSwitch "network.enabled" settings.enabled (constraints.enabled.getD true)
  validateMode validators settings.mode constraints.mode
  validateSwitch "network.allow_upstream_proxy" settings.allowUpstreamProxy
    (constraints.allowUpstreamProxy.getD true)
  validateSwitch "network.dangerously_allow_non_loopback_proxy"
    settings.dangerouslyAllowNonLoopbackProxy
    (constraints.dangerouslyAllowNonLoopbackProxy.getD true)
  -- all sockets are allowed by default only where no list of sockets is managed
  validateSwitch "network.dangerously_allow_all_unix_sockets"
    settings.dangerouslyAllowAllUnixSockets
    (constraints.dangerouslyAllowAllUnixSockets.getD constraints.allowUnixSockets.isNone)
  validateSwitch "network.allow_local_binding" settings.allowLocalBinding
    (constraints.allowLocalBinding.getD true)
  whenSome constraints.allowedDomains fun managed => do
    validateNonGlobalWildcardDomainPatterns tools allowedDomainsField managed
    validateAllowedDomains tools validators configAllowedDomains configDeniedDomains managed
      constraints.allowlistExpansionEnabled
  whenSome constraints.deniedDomains fun managed => do
    validateNonGlobalWildcardDomainPatterns tools deniedDomainsField managed
    validateDeniedDomains validators configDeniedDomains managed
      constraints.denylistExpansionEnabled
  whenSome constraints.allowUnixSockets fun managed =>
    validateUnixSockets validators settings.allowUnixSockets managed

end Validation

section Accepted

theorem bind_eq_ok {s : Unit → Check} :
    (first >>= s) = .ok () ↔ first = .ok () ∧ s () = .ok () := by
  cases first <;> simp [bind, Except.bind]

theorem refuseUnless_eq_ok : refuseUnless holds fn c a = .ok () ↔ holds = true := by
  cases holds <;> simp [refuseUnless]

variable {Hook : Type}

/-- What an accepted configuration has been checked for, where domains are managed. -/
structure Accepted (tools : HostTools) (validators : Validators Hook)
    (settings : NetworkProxySettings Hook) (constraints : NetworkProxyConstraints) : Prop where
  allowed : ∀ managed, constraints.allowedDomains = some managed →
    validateAllowedDomains tools validators (settings.allowedDomains.getD [])
      (settings.deniedDomains.getD []) managed constraints.allowlistExpansionEnabled = .ok ()
  denied : ∀ managed, constraints.deniedDomains = some managed →
    validateDeniedDomains validators (settings.deniedDomains.getD []) managed
      constraints.denylistExpansionEnabled = .ok ()

theorem accepted_of_ok (h : validatePolicyAgainstConstraints tls validators ss cs = .ok ()) :
    Accepted tls validators ss cs := by
  simp only [validatePolicyAgainstConstraints, bind_eq_ok] at h
  obtain ⟨-, -, -, -, -, -, -, -, ha, hd, -⟩ := h
  constructor
  · intro m hm
    simp only [hm, whenSome, bind_eq_ok] at ha
    exact ha.2
  · intro m hm
    simp only [hm, whenSome, bind_eq_ok] at hd
    exact hd.2

/-- Without a choice on expansion, every entry is covered by a managed one as the parser for
constraints reads them. -/
theorem Accepted.covered (h : Accepted tls validators ss cs) (hm : cs.allowedDomains = some m)
    (he : cs.allowlistExpansionEnabled = none) (hen : e ∈ ss.allowedDomains.getD []) :
    ∃ k ∈ m, (DomainPattern.parseForConstraints tls k).allows
      (DomainPattern.parseForConstraints tls e) = true := by
  have hc := h.allowed m hm
  rw [he] at hc
  simp only [validateAllowedDomains, refuseUnless_eq_ok, List.isEmpty_iff,
    List.filter_eq_nil_iff] at hc
  simpa using hc e hen

theorem Accepted.denies (h : Accepted tls validators ss cs) (hm : cs.deniedDomains = some m)
    (hk : known ∈ m) : ∃ e ∈ ss.deniedDomains.getD [], asciiLower e = asciiLower known := by
  have hc := h.denied m hm
  have hmm : asciiLower known ∈ m.map asciiLower := mem_map_of_mem hk
  simp only [validateDeniedDomains] at hc
  have hcn : asciiLower known ∈ (ss.deniedDomains.getD []).map asciiLower := by
    split at hc
    · simp only [refuseUnless_eq_ok, sameTexts, and_eq_true, List.all_eq_true] at hc
      exact List.contains_iff_mem.mp (hc.2 _ hmm)
    · simp only [refuseUnless_eq_ok, List.isEmpty_iff, List.filter_eq_nil_iff] at hc
      have hf := hc _ hmm
      rw [not_eq_true, not_eq_false'] at hf
      exact List.contains_iff_mem.mp hf
  obtain ⟨e, he, heq⟩ := mem_map.mp hcn
  exact ⟨e, he, heq⟩

end Accepted

section Inclusion

def Narrower (first second : GlobSet) : Prop :=
  ∀ host, first.isMatch host = true → second.isMatch host = true

variable (tools : HostTools)

/-- Every glob that is enforced for the entries is one of the managed entries, or is for a part of
the subdomains one of them is for. -/
def GlobsWithin (entries managed : List Str) : Prop :=
  ∀ entry ∈ entries, ∀ narrow ∈ enforcedGlobs tools entry,
    ∃ known ∈ managed, ∃ wide ∈ enforcedGlobs tools known, Within narrow wide

/-- The enforced domains have no character that is special in a glob. -/
def PlainEntries (entries : List Str) : Prop :=
  ∀ entry ∈ entries, Glob.PlainGlob (enforcedDomain tools entry)

variable {set : GlobSet}

theorem narrower_of_globsWithin (hs : compileAllowlistGlobset tls es = .ok set)
    (hm : compileAllowlistGlobset tls m = .ok ms) (h : GlobsWithin tls es m) : Narrower set ms := by
  intro host hh
  obtain ⟨e, he, n, hn, g, hg, hmt⟩ := (isMatch_iff hs host).mp hh
  obtain ⟨known, hk, w, hwd, hwt⟩ := h e he n hn
  obtain ⟨wg, hw⟩ := exists_compile hm hk hwd
  apply (isMatch_iff hm host).mpr
  exact ⟨known, hk, w, hwd, wg, hw, hwt.matches hg hw hmt⟩

theorem plainText_of_mem (hp : PlainEntries tls es) (he : e ∈ es)
    (ht : text ∈ enforcedGlobs tls e) : PlainText text :=
  ⟨enforcedDomain tls e, hp e he, lower_enforcedDomain tls e, mem_enforcedGlobs ht⟩

theorem globsWithin_of_narrower (hs : compileAllowlistGlobset tls es = .ok set)
    (hm : compileAllowlistGlobset tls managed = .ok ms) (hpl : PlainEntries tls es)
    (hp : PlainEntries tls managed) (h : Narrower set ms) : GlobsWithin tls es managed := by
  intro e he n hn
  have hwd : ∀ wide ∈ managed.flatMap (enforcedGlobs tls), PlainText wide := by
    intro wide hw
    obtain ⟨known, hk, hmm⟩ := mem_flatMap.mp hw
    exact plainText_of_mem hp hk hmm
  obtain ⟨wide, hw, hwt⟩ := exists_within (plainText_of_mem hpl he hn) hwd (by
    rintro host ⟨g, hg, hmt⟩
    have hh := h host ((isMatch_iff hs host).mpr ⟨e, he, n, hn, g, hg, hmt⟩)
    obtain ⟨known, hk, wide, hw, hf⟩ := (isMatch_iff hm host).mp hh
    exact ⟨wide, mem_flatMap.mpr ⟨known, hk, hw⟩, hf⟩)
  obtain ⟨known, hk, hmm⟩ := mem_flatMap.mp hw
  exact ⟨known, hk, wide, hmm, hwt⟩

theorem narrower_of_denied (hs : compileDenylistGlobset tls es = .ok set)
    (hm : compileDenylistGlobset tls m = .ok ms)
    (h : ∀ k ∈ m, ∃ e ∈ es, asciiLower e = asciiLower k) : Narrower ms set := by
  intro host hh
  obtain ⟨k, hk, text, ht, hf⟩ := (isMatch_iff hm host).mp hh
  obtain ⟨e, he, hc⟩ := h k hk
  rw [← enforcedGlobs_congr tls hc] at ht
  exact (isMatch_iff hs host).mpr ⟨e, he, text, ht, hf⟩

end Inclusion

def normalized : DomainPattern → DomainPattern
  | .apexAndSubdomains domain => .apexAndSubdomains (normalizeDomain domain)
  | .subdomainsOnly domain => .subdomainsOnly (normalizeDomain domain)
  | .exact domain => .exact (normalizeDomain domain)

/-- Both parsers read the same pattern from the entry. -/
def ReadAlike (entry : Str) : Prop :=
  normalized (DomainPattern.parseForConstraints tools entry) =
    DomainPattern.parse (normalizePattern tools entry)

/-- A name without special characters that has something before its first dot. -/
structure PlainName (domain : Str) : Prop where
  plain : Glob.PlainGlob domain
  lower : Lower domain
  front : domain.head? ≠ some '.'

def patternGlobs : DomainPattern → List Str
  | .exact domain => [domain]
  | .subdomainsOnly domain => [subdomainGlob domain]
  | .apexAndSubdomains domain => [domain, subdomainGlob domain]

theorem enforcedGlobs_eq (tls : HostTools) (e : Str) : enforcedGlobs tls e =
      patternGlobs (DomainPattern.parse (normalizePattern tls e)) := rfl

theorem within_below (hn : PlainName d) (h : ContextualMessages.endsWith d ('.' :: p) = true) :
    Within d (subdomainGlob p) ∧ Within (subdomainGlob d) (subdomainGlob p) := by
  obtain ⟨f, rfl⟩ := isSuffixOf_iff_suffix.mp h
  have hpr : p ⊆ f ++ '.' :: p := fun c hc =>
    mem_append_right f (mem_cons_of_mem _ hc)
  have hp : Glob.PlainGlob p := fun c hc => hn.plain c (hpr hc)
  have hl : Lower p := hn.lower.subset hpr
  have hw : PlainText (subdomainGlob p) := ⟨p, hp, hl, .inr rfl⟩
  have hne : f ≠ [] := by
    rintro rfl
    exact hn.front rfl
  constructor
  · apply within_of_matchedBy hn.plain hn.lower hw
    exact (matchedBy_subdomainGlob hp hl hn.lower).mpr ⟨f, hne, rfl⟩
  · have hln := hn.lower
    let letters := replicate ((subdomainGlob p).length + 1) 'a'
    have hlt : Lower letters := by
      intro c hc
      rw [eq_of_mem_replicate hc]
      rfl
    apply within_of_long hn.plain hn.lower hw (Nat.lt_succ_self _)
    apply (matchedBy_subdomainGlob hp hl (hlt.append (lower_dot hln))).mpr
    exact ⟨letters ++ '.' :: f, by simp, by simp⟩

/-- Where one pattern allows another, its globs are wide enough for the globs of the other. -/
theorem globs_within_of_allows (hn : PlainName (normalized n).domain) (h : w.allows n = true) :
    ∀ text ∈ patternGlobs (normalized n),
      ∃ other ∈ patternGlobs (normalized w), Within text other := by
  have hs : ∀ {text : Str}, Within text text := .inl rfl
  cases w with
  | exact p =>
    cases n with
    | exact c =>
      have heq := beq_iff_eq.mp h
      simp [normalized, patternGlobs, heq, hs]
    | _ => cases h
  | subdomainsOnly p =>
    cases n with
    | exact c =>
      obtain ⟨hb, -⟩ := within_below hn (and_eq_true_iff.mp h).2
      simpa [normalized, patternGlobs, domain] using hb
    | subdomainsOnly c =>
      rcases or_eq_true_iff.mp h with heq | he
      · have heq := beq_iff_eq.mp heq
        simp [normalized, patternGlobs, heq, hs]
      · obtain ⟨-, hb⟩ := within_below hn he
        simpa [normalized, patternGlobs, domain] using hb
    | apexAndSubdomains c =>
      have hb := within_below hn (and_eq_true_iff.mp h).2
      simpa [normalized, patternGlobs, domain] using hb
  | apexAndSubdomains p =>
    cases n with
    | _ c =>
      rcases or_eq_true_iff.mp h with heq | he
      · have heq := beq_iff_eq.mp heq
        simp [normalized, patternGlobs, heq, hs]
      · have hb := within_below hn he
        simp only [normalized, domain] at hb
        simp [normalized, patternGlobs, hb]

theorem globsWithin_of_readAlike (hc : ∀ e ∈ es, ∃ k ∈ managed, (DomainPattern.parseForConstraints
      ts k).allows (DomainPattern.parseForConstraints ts e) = true) (hen : ∀ e ∈ es, ReadAlike ts e)
    (hm : ∀ k ∈ managed, ReadAlike ts k) (hns : ∀ e ∈ es, PlainName (enforcedDomain ts e)) :
    GlobsWithin ts es managed := by
  intro e he n hn
  obtain ⟨k, hk, ha⟩ := hc e he
  have hnm := hns e he
  rw [enforcedDomain, ← hen e he] at hnm
  rw [enforcedGlobs_eq, ← hen e he] at hn
  obtain ⟨w, hw, hwt⟩ := globs_within_of_allows hnm ha n hn
  rw [hm k hk] at hw
  exact ⟨k, hk, w, hw, hwt⟩

section Main

variable {Hook : Type} {tools : HostTools} {validators : Validators Hook}
  {settings : NetworkProxySettings Hook} {constraints : NetworkProxyConstraints}

/-- What an accepted configuration lets through beyond the managed one depends on the globs alone:
it is nothing where each is within a managed glob, and for plain names only there. The check
makes sure of that for the plain names that both parsers read alike. Managed denials are always
kept. -/
theorem accepted_narrower
    (h : validatePolicyAgainstConstraints tools validators settings constraints = .ok ()) :
    (∀ managed set managedSet, constraints.allowedDomains = some managed →
      constraints.allowlistExpansionEnabled = none →
      compileAllowlistGlobset tools (settings.allowedDomains.getD []) = .ok set →
      compileAllowlistGlobset tools managed = .ok managedSet →
      (GlobsWithin tools (settings.allowedDomains.getD []) managed → Narrower set managedSet) ∧
      (PlainEntries tools (settings.allowedDomains.getD []) → PlainEntries tools managed →
        Narrower set managedSet → GlobsWithin tools (settings.allowedDomains.getD []) managed) ∧
      ((∀ entry ∈ settings.allowedDomains.getD [],
          ReadAlike tools entry ∧ PlainName (enforcedDomain tools entry)) →
        (∀ known ∈ managed, ReadAlike tools known) →
        GlobsWithin tools (settings.allowedDomains.getD []) managed)) ∧
    (∀ managed set managedSet, constraints.deniedDomains = some managed →
      compileDenylistGlobset tools (settings.deniedDomains.getD []) = .ok set →
      compileDenylistGlobset tools managed = .ok managedSet → Narrower managedSet set) := by
  have ha := accepted_of_ok h
  constructor
  · intro managed set managedSet hmn hex hs hm
    refine ⟨?_, ?_, ?_⟩
    · exact narrower_of_globsWithin hs hm
    · exact globsWithin_of_narrower hs hm
    · intro hen hk
      apply globsWithin_of_readAlike
      · intro entry he
        exact ha.covered hmn hex he
      · exact fun entry he => (hen entry he).1
      · exact hk
      · exact fun entry he => (hen entry he).2
  · intro managed set managedSet hmn hs hm
    apply narrower_of_denied hs hm
    intro known hk
    exact ha.denies hmn hk

def plainHosts : HostTools := ⟨fun _ => false, some⟩

def noHooks : Validators Unit := ⟨fun _ => none, fun _ => [], fun texts => texts.flatten⟩

def settingsFor (entries : List NetworkDomainPermissionEntry) : NetworkProxySettings Unit :=
  { enabled := true
    allowUpstreamProxy := true
    dangerouslyAllowNonLoopbackProxy := false
    dangerouslyAllowAllUnixSockets := false
    mode := .full
    domains := some entries
    unixSockets := none
    allowLocalBinding := false
    mitm := false
    mitmHooks := [] }

def constraintsFor (allowed denied : Option (List Str)) : NetworkProxyConstraints :=
  { enabled := none
    mode := none
    allowUpstreamProxy := none
    dangerouslyAllowNonLoopbackProxy := none
    dangerouslyAllowAllUnixSockets := none
    allowedDomains := allowed
    allowlistExpansionEnabled := none
    deniedDomains := denied
    denylistExpansionEnabled := none
    allowUnixSockets := none
    allowLocalBinding := none }

def exampleSubdomains : Str := "*.example.com"

def apiEntries : List NetworkDomainPermissionEntry :=
  [⟨"api.example.com", .allow⟩, ⟨"Ads.example.com", .deny⟩]

theorem exists_of_toOption {r : Except Str GlobSet} (h : r.toOption.isSome = true) :
    ∃ set, r = .ok set := by
  cases r with
  | error message => cases h
  | ok set => exact ⟨set, rfl⟩

theorem accepted_narrower_api :
    let settings := settingsFor apiEntries
    let allowed := settings.allowedDomains.getD []
    let d := settings.deniedDomains.getD []
    let md := ["ads.example.com".toList]
    ∃ set ms denySet mds, compileAllowlistGlobset plainHosts allowed = .ok set ∧
      compileAllowlistGlobset plainHosts [exampleSubdomains] = .ok ms ∧
      compileDenylistGlobset plainHosts d = .ok denySet ∧
      compileDenylistGlobset plainHosts md = .ok mds ∧
      Narrower set ms ∧ Narrower mds denySet := by
  intro settings allowed d md
  obtain ⟨set, hs⟩ : ∃ set, compileAllowlistGlobset plainHosts allowed = .ok set :=
    exists_of_toOption (by decide +kernel)
  obtain ⟨ms, hmn⟩ : ∃ ms, compileAllowlistGlobset plainHosts [exampleSubdomains] = .ok ms :=
    exists_of_toOption (by decide +kernel)
  obtain ⟨denySet, hd⟩ : ∃ set, compileDenylistGlobset plainHosts d = .ok set :=
    exists_of_toOption (by decide +kernel)
  obtain ⟨mds, hm⟩ : ∃ set, compileDenylistGlobset plainHosts md = .ok set :=
    exists_of_toOption (by decide +kernel)
  refine ⟨set, ms, denySet, mds, hs, hmn, hd, hm, ?_⟩
  have ha : validatePolicyAgainstConstraints plainHosts noHooks settings
      (constraintsFor (some [exampleSubdomains]) (some md)) = .ok () := by
    decide +kernel
  obtain ⟨haw, hdn⟩ := accepted_narrower ha
  obtain ⟨hn, -, hak⟩ := haw _ set ms rfl rfl hs hmn
  refine ⟨hn (hak ?_ ?_), hdn _ denySet mds rfl hd hm⟩
  · have hal : settings.allowedDomains.getD [] = ["api.example.com".toList] := by
      decide +kernel
    intro e he
    rw [hal, mem_singleton] at he
    rw [he]
    refine ⟨?_, ?_, lower_enforcedDomain _ _, by decide +kernel⟩
    · rw [ReadAlike]
      decide +kernel
    · apply all_eq_true.mp
      decide +kernel
  · intro known hk
    rw [mem_singleton.mp hk, ReadAlike]
    decide +kernel

/-- What is taken for a port is dropped from what is enforced, but not from what is checked. -/
theorem port_escapes_allowlist :
    let entry : Str := "evil.com:*.example.com"
    let settings := settingsFor [⟨entry, .allow⟩]
    let host : Str := "evil.com"
    validatePolicyAgainstConstraints plainHosts noHooks settings
        (constraintsFor (some [exampleSubdomains]) none) = .ok () ∧
      settings.allowedDomains = some [entry] ∧
      (compileAllowlistGlobset plainHosts [entry]).toOption.map (·.isMatch host) = some true ∧
      (compileAllowlistGlobset plainHosts [exampleSubdomains]).toOption.map (·.isMatch host) =
        some false := by
  decide +kernel

end Main

end NetworkConstraints
