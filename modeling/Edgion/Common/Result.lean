import Mathlib.Data.List.Basic

/-!
# Results

The inversion of `?`: a sequence of fallible steps that succeeds is one whose steps each
succeed.
-/

namespace Edgion.Common

universe u

variable {ε : Type*} {α β : Type u} {x : Except ε α} {b : β} {f : α → Except ε β}

/-- **The rule of `?`.** -/
theorem bind_eq_ok : (x >>= f) = .ok b ↔ ∃ a, x = .ok a ∧ f a = .ok b := by
  constructor
  · intro h
    rcases x with e | a
    · cases h
    · exact ⟨a, rfl, h⟩
  · rintro ⟨a, rfl, h⟩
    exact h

/-- Two steps at once. -/
theorem bind_bind_eq_ok {γ : Type u} {g : α → Except ε γ} {f : α → γ → Except ε β} :
    (x >>= fun a => g a >>= f a) = .ok b ↔ ∃ a, x = .ok a ∧ ∃ c, g a = .ok c ∧ f a c = .ok b := by
  simp only [bind_eq_ok]

/-- Results for a whole list are results one by one. -/
theorem forall₂_of_mapM_eq_ok {as : List α} {bs : List β}
    (h : as.mapM f = .ok bs) : List.Forall₂ (fun a b => f a = .ok b) as bs := by
  induction as generalizing bs with
  | nil =>
    cases h
    exact .nil
  | cons a as ih =>
    rw [List.mapM_cons] at h
    obtain ⟨b, hb, bs, hbs, h⟩ := bind_bind_eq_ok.1 h
    cases h
    exact .cons hb (ih hbs)

/-- Two steps that can be run in sequence succeed one after the other. -/
theorem exists_of_bind_isOk (h : (x >>= f).isOk) : ∃ a b, x = .ok a ∧ f a = .ok b := by
  rcases hr : x >>= f with e | b
  · rw [hr] at h
    cases h
  · obtain ⟨a, ha, hb⟩ := bind_eq_ok.1 hr
    exact ⟨a, b, ha, hb⟩

theorem toOption_eq_some {a : α} : x.toOption = some a ↔ x = .ok a := by
  rcases x with e | b
  · simp [Except.toOption]
  · simp [Except.toOption]

/-- What is computed from a result shows that there is one. -/
theorem exists_ok_of_bind {f : α → Option β}
    (h : x.toOption.bind f = some b) : ∃ a, x = .ok a ∧ f a = some b := by
  obtain ⟨a, ha, hb⟩ := Option.bind_eq_some_iff.1 h
  exact ⟨a, toOption_eq_some.1 ha, hb⟩

/-- A pair is known from its second part on. -/
theorem exists_eq_of_snd {p : α × β} (h : p.2 = b) : ∃ a, p = (a, b) :=
  ⟨p.1, Prod.ext rfl h⟩

end Edgion.Common
