import Mathlib.Data.List.Basic
import Mathlib.Data.List.Perm.Basic

/-! Computations that may fail, and runs of them over a list. `Alike` is the simulation between two
of them that fail together: it goes through binds and along lists. -/

namespace Telemetry

variable {ε δ α β α' β' ι κ : Type}

theorem bind_eq_ok_iff {x : Except ε α} {k : α → Except ε β} {b : β} :
    x >>= k = .ok b ↔ ∃ a, x = .ok a ∧ k a = .ok b := by
  cases x with
  | error e => simp [bind, Except.bind]
  | ok a => simp [bind, Except.bind]

theorem bind_eq_error_iff {x : Except ε α} {k : α → Except ε β} {e : ε} :
    x >>= k = .error e ↔ x = .error e ∨ ∃ a, x = .ok a ∧ k a = .error e := by
  cases x with
  | error e => simp [bind, Except.bind]
  | ok a => simp [bind, Except.bind]

theorem map_eq_ok_iff {x : Except ε α} {f : α → β} {b : β} :
    x.map f = .ok b ↔ ∃ a, x = .ok a ∧ f a = b := by
  cases x <;> simp [Except.map]

theorem foldlM_append_eq_ok_iff {g : α → ι → Except ε α} {is js : List ι} {a c : α} :
    (is ++ js).foldlM g a = .ok c ↔ ∃ b, is.foldlM g a = .ok b ∧ js.foldlM g b = .ok c := by
  rw [List.foldlM_append, bind_eq_ok_iff]

theorem foldlM_keeps {g : α → ι → Except ε α} {P : α → Prop} {is : List ι}
    (step : ∀ i ∈ is, ∀ a b, P a → g a i = .ok b → P b) {a b : α} (ha : P a)
    (h : is.foldlM g a = .ok b) : P b := by
  induction is generalizing a with
  | nil =>
    cases h
    exact ha
  | cons i is ih =>
    rw [List.foldlM_cons, bind_eq_ok_iff] at h
    obtain ⟨c, hc, h⟩ := h
    exact ih (fun j hj => step j (List.mem_cons_of_mem _ hj)) (step i List.mem_cons_self a c ha hc) h

theorem foldlM_eq_error_iff {g : α → ι → Except ε α} {is : List ι} {a : α} {e : ε} :
    is.foldlM g a = .error e ↔
      ∃ before i after b, is = before ++ i :: after ∧ before.foldlM g a = .ok b ∧
        g b i = .error e := by
  constructor
  · intro h
    induction is generalizing a with
    | nil => cases h
    | cons i is ih =>
      rw [List.foldlM_cons, bind_eq_error_iff] at h
      rcases h with h | ⟨b, hb, h⟩
      · exact ⟨[], i, is, a, rfl, rfl, h⟩
      · obtain ⟨before, j, after, c, rfl, hc, hj⟩ := ih h
        refine ⟨i :: before, j, after, c, rfl, ?_, hj⟩
        rw [List.foldlM_cons, hb]
        exact hc
  · rintro ⟨before, i, after, b, rfl, hb, hi⟩
    rw [List.foldlM_append, bind_eq_error_iff]
    refine Or.inr ⟨b, hb, ?_⟩
    rw [List.foldlM_cons, bind_eq_error_iff]
    exact Or.inl hi

theorem mapM_eq_error_iff {g : ι → Except ε α} {is : List ι} {e : ε} :
    is.mapM g = .error e ↔
      ∃ before i after, is = before ++ i :: after ∧ (∀ j ∈ before, ∃ a, g j = .ok a) ∧
        g i = .error e := by
  constructor
  · intro h
    induction is with
    | nil => cases h
    | cons i is ih =>
      rw [List.mapM_cons, bind_eq_error_iff] at h
      rcases h with h | ⟨a, ha, h⟩
      · exact ⟨[], i, is, rfl, by simp, h⟩
      · rcases bind_eq_error_iff.1 h with h | ⟨_, -, h⟩
        · obtain ⟨before, j, after, rfl, hbefore, hj⟩ := ih h
          exact ⟨i :: before, j, after, rfl, List.forall_mem_cons.2 ⟨⟨a, ha⟩, hbefore⟩, hj⟩
        · cases h
  · rintro ⟨before, i, after, rfl, hbefore, hi⟩
    induction before with
    | nil =>
      rw [List.nil_append, List.mapM_cons, bind_eq_error_iff]
      exact Or.inl hi
    | cons j before ih =>
      obtain ⟨⟨a, ha⟩, hbefore⟩ := List.forall_mem_cons.1 hbefore
      rw [List.cons_append, List.mapM_cons, bind_eq_error_iff]
      exact Or.inr ⟨a, ha, bind_eq_error_iff.2 (Or.inl (ih hbefore))⟩

theorem exists_of_mem_mapM_ok {g : ι → Except ε α} {is : List ι} {as : List α}
    (h : is.mapM g = .ok as) {a : α} (ha : a ∈ as) : ∃ i ∈ is, g i = .ok a := by
  induction is generalizing as with
  | nil =>
    obtain rfl := Except.ok.inj h
    cases ha
  | cons i is ih =>
    rw [List.mapM_cons] at h
    obtain ⟨b, hb, h⟩ := bind_eq_ok_iff.1 h
    obtain ⟨bs, hbs, h⟩ := bind_eq_ok_iff.1 h
    obtain rfl := Except.ok.inj h
    rcases List.mem_cons.1 ha with rfl | ha
    · exact ⟨i, .head _, hb⟩
    · obtain ⟨j, hj, hg⟩ := ih hbs ha
      exact ⟨j, .tail _ hj, hg⟩

theorem mem_of_mem_mapM_ok {g : ι → Except ε α} {is : List ι} {as : List α}
    (h : is.mapM g = .ok as) {i : ι} (hi : i ∈ is) {a : α} (ha : g i = .ok a) : a ∈ as := by
  induction is generalizing as with
  | nil => cases hi
  | cons j is ih =>
    rw [List.mapM_cons] at h
    obtain ⟨b, hb, h⟩ := bind_eq_ok_iff.1 h
    obtain ⟨bs, hbs, h⟩ := bind_eq_ok_iff.1 h
    obtain rfl := Except.ok.inj h
    rcases List.mem_cons.1 hi with rfl | hi
    · rw [Except.ok.inj (ha.symm.trans hb)]
      exact List.mem_cons_self
    · exact List.mem_cons_of_mem _ (ih hbs hi)

theorem exists_of_mem_mapM_some {g : ι → Option α} {is : List ι} {as : List α}
    (h : is.mapM g = some as) {a : α} (ha : a ∈ as) : ∃ i ∈ is, g i = some a := by
  induction is generalizing as with
  | nil =>
    obtain rfl := Option.some.inj h
    cases ha
  | cons i is ih =>
    rw [List.mapM_cons] at h
    obtain ⟨b, hb, h⟩ := Option.bind_eq_some_iff.1 h
    obtain ⟨bs, hbs, h⟩ := Option.bind_eq_some_iff.1 h
    obtain rfl := Option.some.inj h
    rcases List.mem_cons.1 ha with rfl | ha
    · exact ⟨i, .head _, hb⟩
    · obtain ⟨j, hj, hg⟩ := ih hbs ha
      exact ⟨j, .tail _ hj, hg⟩

theorem mapM_eq_some_iff {g : ι → Option α} {is : List ι} {as : List α} :
    is.mapM g = some as ↔ is.map g = as.map some := by
  induction is generalizing as with
  | nil => cases as <;> simp
  | cons i is ih =>
    rw [List.mapM_cons, List.map_cons]
    cases as with
    | nil => simp [Option.bind_eq_some_iff]
    | cons a as => simp [Option.bind_eq_some_iff, ← ih]

theorem mapM_eq_none_iff {g : ι → Option α} {is : List ι} :
    is.mapM g = none ↔ ∃ i ∈ is, g i = none := by
  induction is with
  | nil => simp
  | cons i is ih =>
    rw [List.mapM_cons, List.exists_mem_cons_iff, ← ih]
    cases g i with
    | none => simp
    | some a => cases is.mapM g <;> simp

theorem mapM_congr {g : ι → Option α} {h : κ → Option α} {is : List ι} {js : List κ}
    (hs : List.Forall₂ (fun i j => g i = h j) is js) : is.mapM g = js.mapM h := by
  induction hs with
  | nil => rfl
  | cons hij _ ih => rw [List.mapM_cons, List.mapM_cons, hij, ih]

theorem mapM_perm {g : ι → Option α} {is js : List ι} (h : is.Perm js) :
    (is.mapM g = none ∧ js.mapM g = none) ∨
      ∃ as bs, is.mapM g = some as ∧ js.mapM g = some bs ∧ as.Perm bs := by
  cases has : is.mapM g with
  | none =>
    obtain ⟨i, hi, hnone⟩ := mapM_eq_none_iff.1 has
    exact Or.inl ⟨rfl, mapM_eq_none_iff.2 ⟨i, h.mem_iff.1 hi, hnone⟩⟩
  | some as =>
    cases hbs : js.mapM g with
    | none =>
      obtain ⟨j, hj, hnone⟩ := mapM_eq_none_iff.1 hbs
      rw [mapM_eq_none_iff.2 ⟨j, h.mem_iff.2 hj, hnone⟩] at has
      cases has
    | some bs =>
      have hmap := h.map g
      rw [mapM_eq_some_iff.1 has, mapM_eq_some_iff.1 hbs] at hmap
      exact Or.inr ⟨as, bs, rfl, rfl, (List.map_perm_map_iff (fun _ _ => Option.some.inj)).1 hmap⟩

/-- Two computations that end alike: the second fails with what `f` makes of the first's error, or
both end in related states. -/
inductive Alike (f : ε → δ) (R : α → β → Prop) : Except ε α → Except δ β → Prop
  | error (e : ε) : Alike f R (.error e) (.error (f e))
  | ok {a : α} {b : β} (h : R a b) : Alike f R (.ok a) (.ok b)

namespace Alike

variable {f : ε → δ} {R : α → β → Prop} {S : α' → β' → Prop}

theorem outcome {x : Except ε α} {y : Except δ β} (h : Alike f R x y) :
    (∃ e, x = .error e ∧ y = .error (f e)) ∨ ∃ a b, x = .ok a ∧ y = .ok b ∧ R a b := by
  cases h with
  | error e => exact Or.inl ⟨e, rfl, rfl⟩
  | ok h => exact Or.inr ⟨_, _, rfl, rfl, h⟩

theorem bind {x : Except ε α} {y : Except δ β} {k : α → Except ε α'} {l : β → Except δ β'}
    (h : Alike f R x y) (hk : ∀ a b, R a b → Alike f S (k a) (l b)) :
    Alike f S (x >>= k) (y >>= l) := by
  cases h with
  | error e => exact .error e
  | ok h => exact hk _ _ h

theorem foldlM {g : α → ι → Except ε α} {g' : β → ι → Except δ β}
    (step : ∀ a b i, R a b → Alike f R (g a i) (g' b i)) (is : List ι) {a : α} {b : β}
    (h : R a b) : Alike f R (is.foldlM g a) (is.foldlM g' b) := by
  induction is generalizing a b with
  | nil => exact .ok h
  | cons i is ih =>
    simp only [List.foldlM_cons]
    exact (step a b i h).bind fun _ _ h => ih h

theorem refl (x : Except ε α) : Alike id Eq x x := by
  cases x with
  | error e => exact .error e
  | ok a => exact .ok rfl

theorem map (g : α → β) (x : Except ε α) : Alike id (fun a b => g a = b) x (x.map g) := by
  cases x with
  | error e => exact .error e
  | ok a => exact .ok rfl

/-- Where the one state is a function of the other, so is the outcome. -/
theorem unique {g : α → β} {x : Except ε α} {y z : Except δ β}
    (hy : Alike f (fun a b => g a = b) x y) (hz : Alike f (fun a b => g a = b) x z) : y = z := by
  cases hy with
  | error e => cases hz; rfl
  | ok hy => cases hz with | ok hz => rw [← hy, ← hz]

end Alike
end Telemetry
