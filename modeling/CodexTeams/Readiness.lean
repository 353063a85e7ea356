import CodexTeams.Runs
import Mathlib.Data.List.GetD

/-! The readiness flag. Its receivers are made on demand, and a send that finds none does not store
the value. What is done under the lock of the tokens is one step. -/
namespace Readiness

open Runs

/-- Where a task is in its call; `is_ready` also runs at the start of `wait_ready`. -/
inductive Pc where
  | returned
  | isReady (waits : Bool)
  | tryLock (waits : Bool)
  | reload (waits : Bool)
  | subscribe
  | subscribeLock
  | markReady (token : Int32)
  | markLock (token : Int32)
  | send
  | makeReceiver
  | borrow (unseen : Bool)
  | changed (unseen : Bool)
  deriving DecidableEq

def Pc.isCall : Pc → Bool
  | isReady _ | subscribe | markReady _ => true
  | _ => false

def Pc.hasReceiver : Pc → Bool
  | borrow _ | changed _ => true
  | _ => false

def Pc.notified : Pc → Pc
  | borrow _ => borrow true
  | changed _ => changed true
  | pc => pc

structure Flag where
  ready : Bool
  nextId : Int32
  tokens : List Int32
  value : Bool
  tasks : List Pc

/-- In a step that takes the lock, the number of tokens tried, or that the lock was not free. -/
inductive Event where
  | call (task : ℕ) (pc : Pc)
  | step (task : ℕ) (tries : Option ℕ)

namespace Flag

def new (tasks : ℕ) : Flag := ⟨false, 1, [], false, List.replicate tasks .returned⟩

variable (f : Flag) (task : ℕ)

def pc : Pc := f.tasks.getD task .returned

def taken (tries : ℕ) : Bool := f.nextId + .ofNat tries ∈ 0 :: f.tokens

def Enabled : Event → Prop
  | .call task pc => task < f.tasks.length ∧ f.pc task = .returned ∧ pc.isCall = true
  | .step task tries => f.pc task ≠ .returned ∧ f.pc task ≠ .changed false ∧
    (f.pc task = .subscribeLock → f.ready = false →
      ∀ n ∈ tries, (∀ k < n, f.taken k = true) ∧ f.taken n = false)

def advance (tries : Option ℕ) : Pc → Flag × Pc
  | .isReady waits => (f, if f.ready then .returned else .tryLock waits)
  | .tryLock waits =>
    if tries.isSome ∧ f.tokens = [] then
      ({ f with ready := true }, if f.ready then .returned else .send)
    else (f, .reload waits)
  | .reload waits => (f, if !f.ready && waits then .makeReceiver else .returned)
  | .subscribe => (f, if f.ready then .returned else .subscribeLock)
  | .subscribeLock => match tries, f.ready with
    | some n, false =>
      let token := f.nextId + .ofNat n
      ({ f with nextId := token + 1, tokens := token :: f.tokens }, .returned)
    | _, _ => (f, .returned)
  | .markReady token => (f, if f.ready ∨ token = 0 then .returned else .markLock token)
  | .markLock token =>
    if tries.isSome ∧ token ∈ f.tokens then ({ f with ready := true, tokens := [] }, .send)
    else (f, .returned)
  | .send =>
    (if f.tasks.any Pc.hasReceiver then
      { f with value := true, tasks := f.tasks.map Pc.notified } else f, .returned)
  | .makeReceiver | .changed _ => (f, .borrow false)
  | .borrow unseen => (f, if f.value then .returned else .changed unseen)
  | .returned => (f, .returned)

def moved (pc : Pc) : Flag := { f with tasks := f.tasks.set task pc }

def next : Event → Flag
  | .call task pc => f.moved task pc
  | .step task tries =>
    let (g, pc) := f.advance tries (f.pc task)
    g.moved task pc

def system : EventSystem Flag Event := ⟨Enabled, next⟩

/-- A call of `wait_ready` is blocked and nothing will wake it. -/
def Lost : Prop := f.ready = true ∧ .changed false ∈ f.tasks ∧ .send ∉ f.tasks

/-- No call of `wait_ready` is about to make its receiver when a send finds none. -/
def Timely : Event → Prop
  | .step task _ => f.pc task = .send → .makeReceiver ∈ f.tasks →
    f.tasks.any Pc.hasReceiver = true
  | _ => True

/-- The task has not missed the value. -/
def Hears : Pc → Prop
  | .makeReceiver | .borrow _ => f.value = true
  | .changed unseen => f.value = true ∧ unseen = true
  | _ => True

def Inv : Prop := f.ready = true → .send ∈ f.tasks ∨ ∀ pc ∈ f.tasks, f.Hears pc

variable {f}

theorem lt_of_pc (h : f.pc i ≠ .returned) : i < f.tasks.length := by
  by_contra hn
  exact h (List.getD_eq_default _ _ (Nat.not_lt.mp hn))

theorem pc_mem (h : i < f.tasks.length) : f.pc i ∈ f.tasks := by
  rw [pc, List.getD_eq_getElem _ _ h]
  exact List.getElem_mem h

theorem mem_set_of_ne (hq : q ∈ f.tasks) (hn : f.pc i ≠ q) : q ∈ f.tasks.set i p := by
  obtain ⟨j, hj⟩ := List.mem_iff_getElem?.mp hq
  have hij : i ≠ j := by
    rintro rfl
    exact hn (by rw [pc, List.getD_eq_getElem?_getD, hj, Option.getD_some])
  exact List.mem_of_getElem? ((List.getElem?_set_ne hij).trans hj)

/-- What a task that does not send leaves of the flag, and where it goes. -/
structure Quiet (f g : Flag) (q r : Pc) : Prop where
  value : g.value = f.value
  tasks : g.tasks = f.tasks
  hears : g.ready = true → r = .send ∨ f.ready = true ∧ (f.Hears q → f.Hears r)

theorem quiet_advance (hq : q ≠ .send) (n : Option ℕ) :
    Quiet f (f.advance n q).1 q (f.advance n q).2 := by
  cases q <;> simp only [advance] <;> (repeat' split) <;> constructor <;> simp_all [Hears]

theorem Inv.quiet (h : f.Inv) (hi : i < f.tasks.length) (hs : f.pc i ≠ .send)
    (hq : Quiet f g (f.pc i) p) : (g.moved i p).Inv := by
  obtain ⟨hv, hg, hh⟩ := hq
  intro hr
  rw [moved, hg]
  rcases hh hr with rfl | ⟨hf, hh⟩
  · exact .inl (List.mem_set hi _)
  · refine (h hf).imp (mem_set_of_ne · hs) fun ha q hq => ?_
    have hq : f.Hears q := by
      rcases List.mem_or_eq_of_mem_set hq with hq | rfl
      · exact ha q hq
      · exact hh (ha _ (pc_mem hi))
    cases q <;> simp_all [Hears]

theorem inv_sent (ht : .makeReceiver ∈ f.tasks → f.tasks.any Pc.hasReceiver = true) (n : Option ℕ) :
    ((f.advance n .send).1.moved i .returned).Inv := by
  refine fun _ => .inr fun q hq => ?_
  rcases List.mem_or_eq_of_mem_set hq with hq | rfl
  · simp only [advance] at hq ⊢
    split at hq
    · obtain ⟨q, -, rfl⟩ := List.mem_map.mp hq
      cases q <;> simp_all [moved, Hears, Pc.notified]
    · next hn =>
      cases q with
      | makeReceiver => exact absurd (ht hq) hn
      | borrow | changed => exact absurd (List.any_eq_true.mpr ⟨_, hq, rfl⟩) hn
      | _ => trivial
  · trivial

theorem Inv.next (h : f.Inv) (he : f.Enabled e) (ht : f.Timely e) : (f.next e).Inv := by
  cases e with
  | call i p =>
    obtain ⟨hi, hr, hc⟩ := he
    refine h.quiet hi (by rw [hr]; nofun) ?_
    cases p <;> constructor <;> simp_all [Pc.isCall, Hears]
  | step i n =>
    by_cases hs : f.pc i = .send
    · simp only [Flag.next, hs]
      exact inv_sent (ht hs) n
    · exact h.quiet (lt_of_pc he.1) hs (quiet_advance hs n)

/-- In every run in which no send that finds no receiver comes while a call of `wait_ready` is
about to make its own, no wake-up is lost. -/
theorem no_lost_wake_up {tasks : ℕ} {f : Flag} (h : system.Reaches Timely (new tasks) f) :
    ¬ f.Lost := by
  have hn : (new tasks).Inv := nofun
  have hf : f.Inv := h.invariant (fun _ _ h he ht => h.next he ht) hn
  rintro ⟨hr, hm, hs⟩
  cases ((hf hr).resolve_left hs _ hm).2

instance decidableEnabled (f : Flag) (event : Event) : Decidable (system.Enabled f event) := by
  unfold system Enabled
  cases event <;> infer_instance

instance decidableTimely (f : Flag) (event : Event) : Decidable (f.Timely event) := by
  unfold Timely
  split <;> infer_instance

def call (pc : Pc) (steps : ℕ) : List Event :=
  .call task pc :: List.replicate steps (.step task (some 0))

theorem no_lost_wake_up_waiting :
    let events := call 0 .subscribe 2 ++ call 1 (.isReady true) 5 ++ call 0 (.markReady 1) 3
    system.Allows Timely events (new 2) ∧ (system.run events (new 2)).ready = true ∧
      ¬ (system.run events (new 2)).Lost :=
  ⟨by decide, by decide, no_lost_wake_up (EventSystem.Reaches.of_allows (by decide))⟩

/-- The flag is marked between the check and the receiver of a call of `wait_ready`. -/
theorem wake_up_lost :
    let events := call 0 .subscribe 2 ++ call 1 (.isReady true) 3 ++ call 0 (.markReady 1) 3 ++
      List.replicate 2 (.step 1 (some 0))
    system.Allows EventSystem.always events (new 2) ∧ (system.run events (new 2)).Lost := by
  unfold Lost
  decide

end Flag
end Readiness
