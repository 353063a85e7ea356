import CodexTeams.AgentSlots
import Mathlib.Data.List.DropRight

/-! The nicknames that the registry of agents hands out. A name is taken until the pool is used
up; then all names are free again, with the next ordinal behind them. -/
namespace Nicknames

open RustStr Agents AgentSlots List

def nicknameOf (s : System) : Event → Option Str
  | .reserveNickname caller names preferred choice =>
    match s.callers.lookup caller with
    | some (.held _) => (reserveAgentNickname s.activeAgents names preferred choice).2
    | _ => none
  | _ => none

/-- The nicknames that the reservations of a run get. -/
def handedOut : System → List Event → List Str
  | _, [] => []
  | s, event :: events => (nicknameOf s event).toList ++ handedOut (step s event) events

def ordinal (value : ℕ) : Str := (toString value).toList ++ ordinalSuffix value

def PlainPool (pool : List Str) : Prop :=
  ∀ name ∈ pool, ∀ base value, name ≠ base ++ " the " ++ ordinal value

def FromPool (pool : List Str) : Event → Prop
  | .reserveNickname _ names preferred _ => names = pool ∧ preferred = none
  | _ => True

theorem formatAgentNickname_succ (n : Str) (k : ℕ) :
    formatAgentNickname n (k + 1) = n ++ " the " ++ ordinal (k + 2) :=
  append_assoc ..

theorem length_ordinalSuffix (v : ℕ) : (ordinalSuffix v).length = 2 := by
  unfold ordinalSuffix
  split
  · rfl
  · split <;> rfl

theorem toList_toString (v : ℕ) : (toString v).toList = Nat.toDigits 10 v := by
  rw [Nat.toString_eq_ofList_toDigits, String.toList_ofList]

theorem number_inj {v' : ℕ} (h : (toString v).toList = (toString v').toList) : v = v' := by
  rw [toList_toString, toList_toString] at h
  have hv := congrArg (Nat.ofDigitChars 10 · 0) h
  simpa only [Nat.ofDigitChars_toDigits (by decide : 1 < 10) (by decide : 10 ≤ 10)] using hv

theorem rtakeWhile_number (b : Str) (v : ℕ) :
    (b ++ " the " ++ (toString v).toList).rtakeWhile Char.isDigit = (toString v).toList := by
  have hd : ∀ c ∈ (toString v).toList.reverse, c.isDigit = true := by
    intro c hc
    rw [mem_reverse, toList_toString] at hc
    exact Nat.isDigit_of_mem_toDigits (by decide) (by decide) hc
  have hs : (b ++ " the ").reverse = ' ' :: (b ++ " the").reverse := by simp
  rw [rtakeWhile, reverse_append, hs, takeWhile_append_of_pos hd,
    takeWhile_cons_of_neg (by decide), append_nil, reverse_reverse]

theorem ordinal_inj {b' : Str} (h : b ++ " the " ++ ordinal v = b' ++ " the " ++ ordinal v') :
    v = v' := by
  rw [ordinal, ordinal, ← append_assoc, ← append_assoc] at h
  have hl := (append_inj' h (by rw [length_ordinalSuffix, length_ordinalSuffix])).1
  have hr := congrArg (rtakeWhile Char.isDigit) hl
  rw [rtakeWhile_number, rtakeWhile_number] at hr
  exact number_inj hr

theorem generation_inj (hp : PlainPool pool) (hn : n ∈ pool) (hn' : n' ∈ pool)
    (h : formatAgentNickname n k = formatAgentNickname n' k') : k = k' := by
  cases k with
  | zero =>
    cases k' with
    | zero => rfl
    | succ k' => exact absurd (h.trans (formatAgentNickname_succ n' k')) (hp n hn n' _)
  | succ k =>
    rw [formatAgentNickname_succ] at h
    cases k' with
    | zero => exact absurd h.symm (hp n' hn' n _)
    | succ k' =>
      rw [formatAgentNickname_succ] at h
      have := ordinal_inj h
      omega

/-- What was handed out is of this generation and in use, or of an earlier one. -/
def Issued (pool : List Str) (agents : ActiveAgents) (out : List Str) : Prop :=
  ∀ x ∈ out, ∃ name ∈ pool, ∃ k ≤ agents.nicknameResetCount, x = formatAgentNickname name k ∧
    (k = agents.nicknameResetCount → x ∈ agents.usedAgentNicknames)

/-- Nothing but a reservation frees a nickname. -/
def Retains (agents agents' : ActiveAgents) : Prop :=
  agents'.nicknameResetCount = agents.nicknameResetCount ∧
    agents.usedAgentNicknames ⊆ agents'.usedAgentNicknames

variable {out : List Str}

theorem Issued.retains (h : Issued pool agents out) (hr : Retains agents agents') :
    Issued pool agents' out := by
  intro x hx
  obtain ⟨n, hn, k, hk, he, hu⟩ := h x hx
  rw [← hr.1] at hk hu
  exact ⟨n, hn, k, hk, he, fun hc => hr.2 (hu hc)⟩

theorem Retains.refl (agents : ActiveAgents) : Retains agents agents := ⟨rfl, Finset.Subset.refl _⟩

theorem retains_step (s : System) (he : ∀ c ns p i, e ≠ .reserveNickname c ns p i) :
    Retains s.activeAgents (step s e).activeAgents := by
  cases e with
  | reserveNickname c ns p i => exact absurd rfl (he c ns p i)
  | commit c m =>
    simp only [step, registerSpawnedThread]
    split
    · split
      · exact .refl _
      · split
        · exact ⟨rfl, Finset.subset_insert ..⟩
        · exact .refl _
    · exact .refl _
  | reservePath c p =>
    simp only [step, reservePath, reserveAgentPath]
    split
    · cases s.activeAgents.agentTree.lookup p.path <;> exact .refl _
    · exact .refl _
  | _ =>
    simp only [step, exchange, releasePath, releaseReservedAgentPath, release, removeThread,
      registerRootThread]
    repeat' split
    all_goals exact .refl _

theorem choose_mem (h : choose i ns = some n) : n ∈ ns := mem_of_getElem? h

theorem choose_eq_none (h : choose i ns = none) : ns = [] := by
  by_contra hne
  exact absurd (getElem?_eq_none_iff.mp h) (Nat.not_le.mpr (Nat.mod_lt i (length_pos_iff.mpr hne)))

theorem Issued.use (h : Issued pool agents out) (hn : n ∈ pool) :
    Issued pool (useNickname agents (formatAgentNickname n agents.nicknameResetCount))
      (out ++ [formatAgentNickname n agents.nicknameResetCount]) := by
  intro x hx
  rcases mem_append.mp hx with hx | hx
  · obtain ⟨n', hn', k, hk, he, hu⟩ := h x hx
    exact ⟨n', hn', k, hk, he, fun hc => Finset.mem_insert_of_mem (hu hc)⟩
  · rw [mem_singleton.mp hx]
    exact ⟨n, hn, _, Nat.le_refl _, rfl, fun _ => Finset.mem_insert_self ..⟩

/-- A nickname was not handed out before. -/
theorem Issued.reserve (hp : PlainPool pool) (h : Issued pool agents out) (i : ℕ) :
    Issued pool (reserveAgentNickname agents pool none i).1
        (out ++ (reserveAgentNickname agents pool none i).2.toList) ∧
      ∀ x ∈ (reserveAgentNickname agents pool none i).2, x ∉ out := by
  simp only [reserveAgentNickname]
  split
  · exact ⟨by simpa using h, by simp⟩
  next hne =>
  split
  · next x hx =>
    obtain ⟨hm, hu⟩ := mem_filter.mp (choose_mem hx)
    obtain ⟨n, hn, rfl⟩ := mem_map.mp hm
    refine ⟨h.use hn, ?_⟩
    rintro _ ⟨⟩ ho
    obtain ⟨n', hn', k, hk, he, hk'⟩ := h _ ho
    exact of_decide_eq_true hu (hk' (generation_inj hp hn hn' he).symm)
  · split
    · next hc => exact absurd (choose_eq_none hc) hne
    · next n hc =>
      have hr : Issued pool ⟨agents.agentTree, ∅, agents.nicknameResetCount + 1⟩ out := by
        intro x hx
        obtain ⟨n', hn', k, hk, he, -⟩ := h x hx
        exact ⟨n', hn', k, by simp only; omega, he, fun hk' => by simp only at hk'; omega⟩
      refine ⟨hr.use (choose_mem hc), ?_⟩
      rintro _ ⟨⟩ ho
      obtain ⟨n', hn', k, hk, he, -⟩ := h _ ho
      have := generation_inj hp (choose_mem hc) hn' he
      omega

/-- Nicknames do not repeat, whatever is committed, dropped and released in between and however
often the pool is used up. -/
theorem nicknames_nodup (pool : List Str) (hp : PlainPool pool) (events : List Event)
    (he : ∀ event ∈ events, FromPool pool event) : (handedOut System.new events).Nodup := by
  suffices h : ∀ s out, Issued pool s.activeAgents out → out.Nodup →
      (out ++ handedOut s events).Nodup from h System.new [] (by simp [Issued]) nodup_nil
  induction events with
  | nil =>
    intro s out _ hn
    rwa [handedOut, append_nil]
  | cons e es ih =>
    intro s out h hn
    rw [handedOut, ← append_assoc]
    have hs : Issued pool (step s e).activeAgents (out ++ (nicknameOf s e).toList) ∧
        ∀ x ∈ nicknameOf s e, x ∉ out := by
      cases e with
      | reserveNickname c ns p i =>
        obtain ⟨rfl, rfl⟩ := he _ mem_cons_self
        have hr := h.reserve hp i
        rcases hc : s.callers.lookup c with _ | (_ | r | _) <;> simp only [step, nicknameOf, hc]
        case some.held =>
          rw [reserveNickname]
          split
          · next hn => simpa only [hn] using hr
          · exact hr
        all_goals exact ⟨by simpa using h, by simp⟩
      | _ =>
        refine ⟨?_, by simp [nicknameOf]⟩
        simpa only [nicknameOf, Option.toList_none, append_nil] using
          h.retains (retains_step s (by simp))
    refine ih (fun f hf => he f (mem_cons_of_mem e hf)) _ _ hs.1 ?_
    refine nodup_append.mpr ⟨hn, by cases nicknameOf s e <;> simp, fun a ha b hb hab => ?_⟩
    exact hs.2 b (Option.mem_toList.mp hb) (hab ▸ ha)

theorem nicknames_nodup_reset : (handedOut System.new [.reserve 0 none,
    .reserveNickname 0 ["Ada"] none 0, .reserveNickname 0 ["Ada"] none 0]).Nodup := by
  refine nicknames_nodup ["Ada"] ?_ _ (by simp [FromPool])
  intro n hn b v h
  rw [mem_singleton.mp hn] at h
  have hl := congrArg length h
  simp at hl
  omega

end Nicknames
