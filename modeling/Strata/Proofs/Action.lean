/-
# `Strata.Proofs.Action` — what a call answers and what it leaves behind

`exec` runs a call and gives its answer beside the world after it.  The facts
below compute it for everything that calls are made of, so a call is understood
by rewriting with them; nothing else looks inside the monad.
-/
import Strata.Action

namespace Strata

/-- A sequence of steps succeeds if each of them does. -/
theorem bind_eq_ok {ε α β : Type} {x : Except ε α} {f : α → Except ε β} {b : β} :
    (x >>= f) = .ok b ↔ ∃ a, x = .ok a ∧ f a = .ok b := by
  cases x with
  | error e =>
      refine ⟨fun h => (by cases h), ?_⟩
      rintro ⟨_, h, -⟩
      cases h
  | ok a => simp [bind, Except.bind]

end Strata

namespace Strata.Action

variable {σ τ α β : Type}

/-- What a call answers, and the world that it leaves behind. -/
def exec (x : Action σ α) (s : σ) : Except Failure α × σ := x.run.run s

@[simp] theorem exec_pure (a : α) (s : σ) : (pure a : Action σ α).exec s = (.ok a, s) := rfl

@[simp] theorem exec_throw (f : Failure) (s : σ) :
    (throw f : Action σ α).exec s = (.error f, s) := rfl

@[simp] theorem exec_get (s : σ) : (get : Action σ σ).exec s = (.ok s, s) := rfl

@[simp] theorem exec_set (s t : σ) : (set t : Action σ PUnit).exec s = (.ok ⟨⟩, t) := rfl

@[simp] theorem exec_modify (f : σ → σ) (s : σ) :
    (modify f : Action σ PUnit).exec s = (.ok ⟨⟩, f s) := rfl

@[simp] theorem exec_attempt (x : Action σ α) (s : σ) :
    (attempt x).exec s = (.ok (x.exec s).1, (x.exec s).2) := rfl

@[simp] theorem exec_look (f : σ → α) (s : σ) : (look f).exec s = (.ok (f s), s) := rfl

@[simp] theorem exec_ofExcept (r : Except Failure α) (s : σ) :
    (ofExcept r : Action σ α).exec s = (r, s) := rfl

@[simp] theorem exec_zoom (view : σ → τ) (update : τ → σ → σ) (x : Action τ α) (s : σ) :
    (zoom view update x).exec s = ((x.exec (view s)).1, update (x.exec (view s)).2 s) := rfl

@[simp] theorem exec_bind (x : Action σ α) (f : α → Action σ β) (s : σ) :
    (x >>= f).exec s =
      match x.exec s with
      | (.ok a, t) => (f a).exec t
      | (.error e, t) => (.error e, t) := by
  simp only [exec, ExceptT.run_bind, StateT.run_bind]
  rcases x.run.run s with ⟨_ | _, _⟩ <;> rfl

@[simp] theorem exec_map (f : α → β) (x : Action σ α) (s : σ) :
    (f <$> x).exec s =
      match x.exec s with
      | (.ok a, t) => (.ok (f a), t)
      | (.error e, t) => (.error e, t) := by
  rw [← bind_pure_comp, exec_bind]
  rcases x.exec s with ⟨_ | _, _⟩ <;> rfl

theorem exec_map_of_eq {x : Action σ α} {s t : σ} {r : Except Failure α} (h : x.exec s = (r, t))
    (f : α → β) : (f <$> x).exec s = (r.map f, t) := by
  rw [exec_map, h]
  cases r <;> rfl

/-- A call whose answer is worked on succeeds if it does itself. -/
theorem ok_of_map {x : Action σ α} {f : α → β} {s : σ} {b : β} (h : ((f <$> x).exec s).1 = .ok b) :
    ∃ a, (x.exec s).1 = .ok a ∧ f a = b := by
  rw [exec_map] at h
  rcases hexec : x.exec s with ⟨e | a, t⟩
  · rw [hexec] at h
    cases h
  · rw [hexec] at h
    exact ⟨a, rfl, Except.ok.inj h⟩

/-- A sequence of steps that succeeds, step by step. -/
theorem of_exec_bind {x : Action σ α} {f : α → Action σ β} {s u : σ} {b : β}
    (h : (x >>= f).exec s = (.ok b, u)) :
    ∃ a t, x.exec s = (.ok a, t) ∧ (f a).exec t = (.ok b, u) := by
  rw [exec_bind] at h
  rcases hexec : x.exec s with ⟨e | a, t⟩
  · rw [hexec] at h
    cases (Prod.mk.inj h).1
  · rw [hexec] at h
    exact ⟨a, t, rfl, h⟩

theorem exec_of_toOption {x : Action σ α} {s : σ} {a : α} (h : (x.exec s).1.toOption = some a) :
    x.exec s = (.ok a, (x.exec s).2) := by
  rcases hexec : x.exec s with ⟨e | b, t⟩
  · rw [hexec] at h
    cases h
  · rw [hexec] at h
    obtain rfl : b = a := Option.some.inj h
    rfl

@[simp] theorem exec_ite (c : Prop) [Decidable c] (x y : Action σ α) (s : σ) :
    (if c then x else y).exec s = if c then x.exec s else y.exec s := by
  split <;> rfl

theorem exec_lift (x : StateM σ α) (s : σ) :
    (liftM x : Action σ α).exec s = (.ok (x.run s).1, (x.run s).2) := rfl

/-! ## What a call keeps -/

/-- Where `I` holds, the call leaves `I` behind, and what it answers has the property `Q`. -/
def Ensures (I : σ → Prop) (x : Action σ α) (Q : α → Prop) : Prop :=
  ∀ s, I s → I (x.exec s).2 ∧ ∀ a, (x.exec s).1 = .ok a → Q a

section
variable {I : σ → Prop} {x y : Action σ α} {Q Q' : α → Prop} {R : β → Prop} {f : α → Action σ β}

theorem Ensures.pure {a : α} (h : Q a) : Ensures I (pure a) Q := by
  intro s hs
  refine ⟨hs, ?_⟩
  rintro _ ⟨⟩
  exact h

theorem Ensures.throw (e : Failure) : Ensures I (throw e) Q :=
  fun _ hs => ⟨hs, fun _ he => (by cases he)⟩

theorem Ensures.get : Ensures I (get : Action σ σ) I := by
  intro s hs
  refine ⟨hs, ?_⟩
  rintro _ ⟨⟩
  exact hs

theorem Ensures.ofExcept (r : Except Failure α) :
    Ensures I (ofExcept r : Action σ α) fun _ => True :=
  fun _ hs => ⟨hs, fun _ _ => trivial⟩

theorem Ensures.any (x : Action σ α) : Ensures (fun _ => True) x fun _ => True :=
  fun _ _ => ⟨trivial, fun _ _ => trivial⟩

theorem Ensures.mono (h : Ensures I x Q) (hq : ∀ a, Q a → Q' a) : Ensures I x Q' :=
  fun s hs => ⟨(h s hs).1, fun a ha => hq a ((h s hs).2 a ha)⟩

theorem Ensures.bind (hx : Ensures I x Q) (hf : ∀ a, Q a → Ensures I (f a) R) :
    Ensures I (x >>= f) R := by
  intro s hs
  have h := hx s hs
  rw [exec_bind]
  rcases hexec : x.exec s with ⟨_ | a, t⟩
  · rw [hexec] at h
    exact ⟨h.1, fun _ he => (by cases he)⟩
  · rw [hexec] at h
    exact hf a (h.2 a rfl) t h.1

theorem Ensures.map (hx : Ensures I x Q) {g : α → β} (hg : ∀ a, Q a → R (g a)) :
    Ensures I (g <$> x) R := by
  rw [← bind_pure_comp]
  exact hx.bind fun a ha => .pure (hg a ha)

theorem Ensures.attempt (hx : Ensures I x Q) :
    Ensures I (attempt x) fun r => ∀ a, r = .ok a → Q a := by
  intro s hs
  refine ⟨(hx s hs).1, ?_⟩
  rintro _ ⟨⟩
  exact (hx s hs).2

theorem Ensures.ite {c : Prop} [Decidable c] (hx : Ensures I x Q) (hy : Ensures I y Q) :
    Ensures I (if c then x else y) Q := by
  split
  · exact hx
  · exact hy

end

end Strata.Action
