import CodexTeams.ExecPolicy
import Mathlib.Data.List.Nodup

/-! The network rules of a policy and the domain lists they compile to. -/
namespace NetworkRules

open RustStr ExecPolicy List

inductive NetworkRuleProtocol
  | http
  | https
  | socks5Tcp
  | socks5Udp
  deriving Repr

structure NetworkRule where
  host : Str
  protocol : NetworkRuleProtocol
  decision : Decision
  justification : Option Str
  deriving Repr

def upsertDomain (entries : List Str) (host : Str) : List Str := entries.filter (· ≠ host) ++ [host]

def compileRule (lists : List Str × List Str) (rule : NetworkRule) : List Str × List Str :=
  match rule.decision with
  | .allow => (upsertDomain lists.1 rule.host, lists.2.filter (· ≠ rule.host))
  | .forbidden => (lists.1.filter (· ≠ rule.host), upsertDomain lists.2 rule.host)
  | .prompt => lists

variable (rules : List NetworkRule)

/-- The allowed and the denied domains. -/
def compiledNetworkDomains : List Str × List Str :=
  rules.foldl compileRule ([], [])

/-- What the last rule for the host says that does not prompt. -/
def lastDecision (host : Str) : Option Decision :=
  (rules.reverse.find? fun rule => rule.host = host ∧ rule.decision ≠ .prompt).map (·.decision)

theorem lastDecision_concat (rs : List NetworkRule) (r : NetworkRule) (host : Str) :
    lastDecision (rs ++ [r]) host =
      if r.host = host ∧ r.decision ≠ .prompt then some r.decision else lastDecision rs host := by
  simp only [lastDecision, reverse_append, reverse_singleton, singleton_append, find?_cons]
  split <;> simp_all

theorem nodup_upsertDomain (h : es.Nodup) (host : Str) : (upsertDomain es host).Nodup := by
  simp [upsertDomain, nodup_append, h.filter]

/-- The lists have no entry twice and none in common, and the last rule that does not prompt
decides where a host is. -/
theorem compiledNetworkDomains_last (rules : List NetworkRule) :
    let (allowed, denied) := compiledNetworkDomains rules
    allowed.Nodup ∧ denied.Nodup ∧ allowed.Disjoint denied ∧ ∀ host,
      (host ∈ allowed ↔ lastDecision rules host = some .allow) ∧
        (host ∈ denied ↔ lastDecision rules host = some .forbidden) := by
  suffices h : (compiledNetworkDomains rules).1.Nodup ∧ (compiledNetworkDomains rules).2.Nodup ∧
      ∀ host, (host ∈ (compiledNetworkDomains rules).1 ↔ lastDecision rules host = some .allow) ∧
        (host ∈ (compiledNetworkDomains rules).2 ↔ lastDecision rules host = some .forbidden) by
    refine ⟨h.1, h.2.1, fun host ha hd => ?_, h.2.2⟩
    cases ((h.2.2 host).1.mp ha).symm.trans ((h.2.2 host).2.mp hd)
  induction rules using reverseRecOn with
  | nil => simp [compiledNetworkDomains, lastDecision]
  | append_singleton rs r ih =>
    obtain ⟨ha, hd, hl⟩ := ih
    have hc : compiledNetworkDomains (rs ++ [r]) = compileRule (compiledNetworkDomains rs) r := by
      rw [compiledNetworkDomains, foldl_append]
      rfl
    rw [hc, compileRule]
    cases hr : r.decision with
    | allow =>
      refine ⟨nodup_upsertDomain ha _, hd.filter _, fun host => ?_⟩
      rw [lastDecision_concat, hr]
      rcases eq_or_ne r.host host with rfl | he
      · simp [upsertDomain]
      · simp [upsertDomain, he, he.symm, hl]
    | forbidden =>
      refine ⟨ha.filter _, nodup_upsertDomain hd _, fun host => ?_⟩
      rw [lastDecision_concat, hr]
      rcases eq_or_ne r.host host with rfl | he
      · simp [upsertDomain]
      · simp [upsertDomain, he, he.symm, hl]
    | prompt =>
      refine ⟨ha, hd, fun host => ?_⟩
      rw [lastDecision_concat, hr]
      simpa using hl host

end NetworkRules
