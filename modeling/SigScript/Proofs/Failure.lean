/-!
# Computations that can fail

A sequence of steps succeeds exactly when every step does.  Two computations whose steps fail alike
and succeed alike do so as a whole (`Alike.foldlM`).
-/

namespace SigScript

variable {ε α β : Type}

@[simp] theorem ok_bind (a : α) (f : α → Except ε β) : (Except.ok a >>= f) = f a := rfl

@[simp] theorem error_bind (e : ε) (f : α → Except ε β) :
    (Except.error e >>= f) = Except.error e := rfl

@[simp] theorem pure_eq_ok (a : α) : (pure a : Except ε α) = .ok a := rfl

@[simp] theorem map_ok (f : α → β) (a : α) : (Except.ok a : Except ε α).map f = .ok (f a) := rfl

theorem bind_eq_ok_iff {x : Except ε α} {f : α → Except ε β} {b : β} :
    (x >>= f) = .ok b ↔ ∃ a, x = .ok a ∧ f a = .ok b := by
  cases x with
  | error e => simp
  | ok a => simp

theorem map_eq_ok_iff {x : Except ε α} {f : α → β} {b : β} :
    x.map f = .ok b ↔ ∃ a, x = .ok a ∧ f a = b := by
  cases x with
  | error e => simp [Except.map]
  | ok a => simp

theorem map_eq_error_iff {x : Except ε α} {f : α → β} {e : ε} :
    x.map f = .error e ↔ x = .error e := by
  cases x with
  | error e' => simp [Except.map]
  | ok a => exact iff_of_false nofun nofun

theorem mapError_eq_ok_iff {ε' : Type} {x : Except ε α} {f : ε → ε'} {a : α} :
    x.mapError f = .ok a ↔ x = .ok a := by
  cases x with
  | error e => exact iff_of_false nofun nofun
  | ok b =>
    have hok : (Except.ok b : Except ε α).mapError f = .ok b := rfl
    rw [hok, Except.ok.injEq, Except.ok.injEq]

theorem toOption_eq_some_iff {x : Except ε α} {a : α} : x.toOption = some a ↔ x = .ok a := by
  cases x with
  | error e => exact iff_of_false nofun nofun
  | ok b => simp [Except.toOption]

/-- What every successful step keeps holds of the result of a fold. -/
theorem foldlM_keeps {I : β → Prop} {f : β → α → Except ε β}
    (step : ∀ b a b', I b → f b a = .ok b' → I b') {xs : List α} {b r : β} (hb : I b)
    (h : xs.foldlM f b = .ok r) : I r := by
  induction xs generalizing b with
  | nil =>
    cases h
    exact hb
  | cons a xs ih =>
    rw [List.foldlM_cons, bind_eq_ok_iff] at h
    obtain ⟨b', hstep, hrest⟩ := h
    exact ih (step b a b' hb hstep) hrest

/-- A fold is not stopped when its steps keep a property under which they are not. -/
theorem foldlM_eq_some {I : β → Prop} {f : β → α → Option β} {g : β → α → β} {xs : List α}
    (hf : ∀ b, I b → ∀ a ∈ xs, f b a = some (g b a)) (hI : ∀ b a, I b → I (g b a)) {b : β}
    (hb : I b) : xs.foldlM f b = some (xs.foldl g b) := by
  induction xs generalizing b with
  | nil => rfl
  | cons a xs ih =>
    rw [List.foldlM_cons, hf b hb a List.mem_cons_self, List.foldl_cons]
    exact ih (fun b hb a ha => hf b hb a (List.mem_cons_of_mem _ ha)) (hI b a hb)

/-- A search whose attempts all succeed succeeds, and what it finds comes from an attempt. -/
theorem findSomeM?_spec {f : α → Except ε (Option β)} {R : α → β → Prop} {xs : List α}
    (attempt : ∀ a ∈ xs, ∃ o, f a = .ok o ∧ ∀ b, o = some b → R a b) :
    ∃ o, xs.findSomeM? f = .ok o ∧ ∀ b, o = some b → ∃ a ∈ xs, R a b := by
  induction xs with
  | nil => exact ⟨none, rfl, by simp⟩
  | cons a xs ih =>
    obtain ⟨o, ho, hR⟩ := attempt a (by simp)
    rw [List.findSomeM?_cons, ho, ok_bind]
    cases o with
    | some b =>
      refine ⟨some b, rfl, ?_⟩
      rintro _ ⟨⟩
      exact ⟨a, by simp, hR b rfl⟩
    | none =>
      obtain ⟨o', ho', hR'⟩ := ih fun a' ha' => attempt a' (List.mem_cons_of_mem a ha')
      refine ⟨o', ho', ?_⟩
      intro b hb
      obtain ⟨a', ha', h⟩ := hR' b hb
      exact ⟨a', List.mem_cons_of_mem a ha', h⟩

/-! ### Computations side by side -/

/-- Both computations succeed, with results related by `R`, or both fail, with failures related by
`E`. -/
inductive Alike {δ : Type} (E : ε → δ → Prop) (R : α → β → Prop) :
    Except ε α → Except δ β → Prop
  | ok {a b} (h : R a b) : Alike E R (.ok a) (.ok b)
  | error {e d} (h : E e d) : Alike E R (.error e) (.error d)

namespace Alike

variable {δ α' β' : Type} {E : ε → δ → Prop} {R : α → β → Prop} {S : α' → β' → Prop}
  {x : Except ε α} {y : Except δ β}

theorem bind {f : α → Except ε α'} {g : β → Except δ β'} (h : Alike E R x y)
    (hfg : ∀ a b, R a b → Alike E S (f a) (g b)) : Alike E S (x >>= f) (y >>= g) := by
  cases h with
  | ok hR => exact hfg _ _ hR
  | error hE => exact .error hE

theorem map {f : α → α'} {g : β → β'} (h : Alike E R x y) (hfg : ∀ a b, R a b → S (f a) (g b)) :
    Alike E S (x.map f) (y.map g) := by
  cases h with
  | ok hR => exact .ok (hfg _ _ hR)
  | error hE => exact .error hE

/-- Steps that keep two states related keep them related throughout a fold. -/
theorem foldlM {γ : Type} {f : α → γ → Except ε α} {g : β → γ → Except δ β}
    (step : ∀ a b c, R a b → Alike E R (f a c) (g b c)) {a : α} {b : β} (h : R a b) (cs : List γ) :
    Alike E R (cs.foldlM f a) (cs.foldlM g b) := by
  induction cs generalizing a b with
  | nil => exact .ok h
  | cons c cs ih =>
    rw [List.foldlM_cons, List.foldlM_cons]
    exact (step a b c h).bind fun a' b' h' => ih h'

/-- A computation is carried on in two ways that are alike. -/
theorem bind_same {E : ε → ε → Prop} (hE : ∀ e, E e e) (x : Except ε α) {f : α → Except ε α'}
    {g : α → Except ε β'} (h : ∀ a, Alike E S (f a) (g a)) : Alike E S (x >>= f) (x >>= g) := by
  cases x with
  | ok a => exact h a
  | error e => exact .error (hE e)

end Alike

end SigScript
