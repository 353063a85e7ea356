import Mathlib.Data.List.Infix

/-! Replacing the occurrences of a pattern in a list, from the left and without overlaps. -/
namespace ListReplace

open List

variable {α : Type*} [DecidableEq α]

/-- The scan; the first elements that are still part of a replaced occurrence are passed over. -/
def replaceFrom (pat repl : List α) : ℕ → List α → List α
  | _, [] => []
  | skip + 1, _ :: s => replaceFrom pat repl skip s
  | 0, a :: s =>
    if pat <+: a :: s then repl ++ replaceFrom pat repl (pat.length - 1) s
    else a :: replaceFrom pat repl 0 s

def replace (pat repl s : List α) : List α := replaceFrom pat repl 0 s

variable {rp : List α}

@[simp] theorem replace_nil : replace pat rp [] = [] := rfl

theorem replaceFrom_append (f : List α) :
    replaceFrom pat rp f.length (f ++ s) = replace pat rp s := by
  induction f with
  | nil => rfl
  | cons a f ih => exact ih

theorem replace_append_self (hp : pat ≠ []) :
    replace pat rp (pat ++ s) = rp ++ replace pat rp s := by
  obtain ⟨a, r, rfl⟩ := exists_cons_of_ne_nil hp
  rw [replace, cons_append, replaceFrom, if_pos ⟨s, rfl⟩, length_cons,
    Nat.add_sub_cancel, replaceFrom_append]

theorem replace_cons_of_not_head (h : ¬ pat <+: a :: s) :
    replace pat rp (a :: s) = a :: replace pat rp s := by
  rw [replace, replaceFrom, if_neg h, replace]

theorem scan_induction {motive : List α → Prop} (hp : pat ≠ []) (nil : motive [])
    (occurrence : ∀ s, motive s → motive (pat ++ s))
    (pass : ∀ a s, ¬ pat <+: a :: s → motive s → motive (a :: s)) (s : List α) : motive s := by
  induction hl : s.length using Nat.strong_induction_on generalizing s with
  | _ n ih =>
    subst hl
    cases s with
    | nil => exact nil
    | cons a s =>
      by_cases hb : pat <+: a :: s
      · obtain ⟨rest, hr⟩ := hb
        rw [← hr]
        apply occurrence
        refine ih rest.length ?_ rest rfl
        have hps := length_pos_of_ne_nil hp
        rw [← hr, length_append]
        omega
      · exact pass a s hb (ih s.length (Nat.lt_succ_self _) s rfl)

theorem replace_of_not_occurs (h : ¬ pat <:+: s) : replace pat rp s = s := by
  induction s with
  | nil => rfl
  | cons a s ih =>
    have hb : ¬ pat <+: a :: s := fun hb => h hb.isInfix
    have ht : ¬ pat <:+: s := fun hi => h (hi.trans (suffix_cons a s).isInfix)
    rw [replace_cons_of_not_head hb, ih ht]

theorem exists_replace_of_infix (hp : pat ≠ []) (h : pat <:+: s) (rp : List α) :
    ∃ u w, replace pat rp s = u ++ (rp ++ w) := by
  induction s using scan_induction hp with
  | nil => exact absurd (infix_nil.mp h) hp
  | occurrence s ih => exact ⟨[], replace pat rp s, replace_append_self hp⟩
  | pass a s hn ih =>
    rcases infix_cons_iff.mp h with hb | hi
    · exact absurd hb hn
    · obtain ⟨u, w, hr⟩ := ih hi
      exact ⟨a :: u, w, by rw [replace_cons_of_not_head hn, hr, cons_append]⟩

theorem replace_append_of_head (hf : pat.head? = some a) (hb : a ∉ bl) (s : List α) :
    replace pat rp (bl ++ s) = bl ++ replace pat rp s := by
  induction bl with
  | nil => rfl
  | cons b bl ih =>
    rw [mem_cons, not_or] at hb
    obtain ⟨hne, hr⟩ := hb
    rw [cons_append, replace_cons_of_not_head, ih hr, cons_append]
    rintro ⟨r, heq⟩
    obtain ⟨pat', rfl⟩ := List.head?_eq_some_iff.mp hf
    rw [cons_append, List.cons.injEq] at heq
    exact hne heq.1

/-- A run of one element, longer than the pattern, that is neither its first nor its last element
stays, and the two sides are replaced apart. -/
theorem replace_append_replicate {a : α} (hf : pat.head? = some a) (hne : a ≠ c)
    (hl : pat.getLast? ≠ some c) (hle : pat.length < n) (u w : List α) :
    replace pat rp (u ++ (List.replicate n c ++ w)) =
      replace pat rp u ++ (List.replicate n c ++ replace pat rp w) := by
  have hp : pat ≠ [] := by
    rintro rfl
    cases hf
  induction u using scan_induction hp with
  | nil =>
    have hrn : a ∉ List.replicate n c := fun hmm => hne (eq_of_mem_replicate hmm)
    exact replace_append_of_head hf hrn w
  | occurrence u ih =>
    rw [append_assoc, replace_append_self hp, replace_append_self hp, ih, append_assoc]
  | pass b u hn ih =>
    rw [cons_append, replace_cons_of_not_head, replace_cons_of_not_head hn, ih, cons_append]
    -- an occurrence that reaches into the run would end in it
    rintro ⟨r, hr⟩
    rw [← cons_append] at hr
    rcases append_eq_append_iff.mp hr with ⟨left, hlf, -⟩ | ⟨i, hi, hrg⟩
    · exact hn ⟨left, hlf.symm⟩
    rcases append_eq_append_iff.mp hrg with ⟨m, hm, -⟩ | ⟨m, hm, -⟩
    · have hln := congrArg List.length hi
      rw [hm, length_append, length_append, length_replicate] at hln
      omega
    · rcases eq_nil_or_concat' i with rfl | ⟨f, d, rfl⟩
      · exact hn ⟨[], hi ▸ by simp⟩
      · have hd : d ∈ List.replicate n c := by
          rw [hm]
          simp
        rw [hi, ← append_assoc, List.getLast?_concat, eq_of_mem_replicate hd] at hl
        exact hl rfl

variable {m : α}

theorem prefix_of_prefix_replace (hp : pat ≠ []) (hm : m ∉ t)
    (h : t <+: replace pat [m] s) : t <+: s := by
  induction s using scan_induction hp generalizing t with
  | nil => exact h
  | occurrence s ih =>
    rw [replace_append_self hp] at h
    cases t with
    | nil => exact nil_prefix
    | cons b t =>
      obtain ⟨rfl, -⟩ := cons_prefix_cons.mp h
      exact absurd mem_cons_self hm
  | pass a s hn ih =>
    rw [replace_cons_of_not_head hn] at h
    cases t with
    | nil => exact nil_prefix
    | cons b t =>
      obtain ⟨rfl, ht⟩ := cons_prefix_cons.mp h
      exact cons_prefix_cons.mpr ⟨rfl, ih (not_mem_of_not_mem_cons hm) ht⟩

theorem infix_of_infix_replace (hp : pat ≠ []) (hm : m ∉ t) (h : t <:+: replace pat [m] s) :
    t <:+: s := by
  induction s using scan_induction hp with
  | nil => exact h
  | occurrence s ih =>
    rw [replace_append_self hp, singleton_append, infix_cons_iff] at h
    rcases h with hb | hi
    · cases t with
      | nil => exact nil_infix
      | cons b t =>
        obtain ⟨rfl, -⟩ := cons_prefix_cons.mp hb
        exact absurd mem_cons_self hm
    · exact (ih hi).trans (suffix_append pat s).isInfix
  | pass a s hn ih =>
    have hc : replace pat [m] (a :: s) = a :: replace pat [m] s := replace_cons_of_not_head hn
    rw [hc, infix_cons_iff] at h
    rcases h with hb | hi
    · exact (prefix_of_prefix_replace hp hm (hc ▸ hb)).isInfix
    · exact (ih hi).trans (suffix_cons a s).isInfix

theorem not_infix_replace (hp : pat ≠ []) (hm : m ∉ pat) : ¬ pat <:+: replace pat [m] s := by
  induction s using scan_induction hp with
  | nil => simpa using hp
  | occurrence s ih =>
    rw [replace_append_self hp, singleton_append, infix_cons_iff]
    rintro (hb | hi)
    · obtain ⟨b, r, rfl⟩ := exists_cons_of_ne_nil hp
      obtain ⟨rfl, -⟩ := cons_prefix_cons.mp hb
      exact hm mem_cons_self
    · exact ih hi
  | pass a s hn ih =>
    have hc : replace pat [m] (a :: s) = a :: replace pat [m] s := replace_cons_of_not_head hn
    rw [hc, infix_cons_iff]
    rintro (hb | hi)
    · exact hn (prefix_of_prefix_replace hp hm (hc ▸ hb))
    · exact ih hi

end ListReplace
