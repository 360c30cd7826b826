import HistoryAnchor.Effects.Scripts

/-! # Calls carried out by programs

A call of one program may itself be a program over other calls. In the expanded program
every call is replaced by what carries it out, and the outcome of that is the answer. So
the program may be verified against what its calls promise, and each promise against the
program behind it.
-/

namespace Effects

namespace Prog

variable {E E' : Type → Type} {ε α β : Type} {σ τ : Type*} {H : Handler E ε σ}
  {H' : Handler E' ε τ} {f : ∀ ⦃β : Type⦄, E β → Prog E' ε β}

def expand (f : ∀ ⦃β : Type⦄, E β → Prog E' ε β) : Prog E ε α → Prog E' ε α
  | ret a => ret a
  | raise e => raise e
  | call c k => (f c).outcome.bind fun x => (k x).expand f

@[simp] theorem expand_ret (a : α) : (ret a : Prog E ε α).expand f = ret a := rfl

@[simp] theorem expand_raise (e : ε) : (raise e : Prog E ε α).expand f = raise e := rfl

@[simp] theorem expand_ofExcept (x : Except ε α) :
    (ofExcept x : Prog E ε α).expand f = ofExcept x := by
  cases x <;> rfl

theorem expand_bind (p : Prog E ε α) (g : α → Prog E ε β) :
    (p.bind g).expand f = (p.expand f).bind fun a => (g a).expand f := by
  induction p with
  | ret a => rfl
  | raise e => rfl
  | call c k ih => simp only [bind, expand, ih, Prog.bind_assoc]

theorem outcome_bind_ofExcept (p : Prog E ε α) : p.outcome.bind ofExcept = p := by
  induction p with
  | ret a => rfl
  | raise e => rfl
  | call c k ih => simp only [outcome, bind, ih]

@[simp] theorem expand_perform (c : E α) : (perform c : Prog E ε α).expand f = f c := by
  simp only [perform, expand, expand_ofExcept]
  exact outcome_bind_ofExcept _

theorem exec_outcome {p : Prog E ε α} {r : Except ε (Except ε α)} {s s' : σ} :
    p.outcome.Exec H s r s' ↔ ∃ x, r = .ok x ∧ p.Exec H s x s' := by
  induction p generalizing s with
  | ret a =>
    constructor
    · rintro ⟨rfl, rfl⟩
      exact ⟨_, rfl, rfl, rfl⟩
    · rintro ⟨_, rfl, rfl, rfl⟩
      exact ⟨rfl, rfl⟩
  | raise e =>
    constructor
    · rintro ⟨rfl, rfl⟩
      exact ⟨_, rfl, rfl, rfl⟩
    · rintro ⟨_, rfl, rfl, rfl⟩
      exact ⟨rfl, rfl⟩
  | call c k ih =>
    simp only [outcome, Exec, ih]
    constructor
    · rintro ⟨x, s₁, hc, y, rfl, hk⟩
      exact ⟨y, rfl, x, s₁, hc, hk⟩
    · rintro ⟨y, rfl, x, s₁, hc, hk⟩
      exact ⟨x, s₁, hc, y, rfl, hk⟩

/-- Every call of the expanded program is one of the programs that carry out the calls. -/
theorem ensures_expand_of_calls {R G : τ → τ → Prop} {p : Prog E ε α}
    {P : ∀ ⦃β : Type⦄, E β → Prop} (hp : p.Calls P)
    (hf : ∀ ⦃β : Type⦄ (c : E β), P c → ∀ t, (f c).Ensures H' R G (fun _ _ => True) t) (t : τ) :
    (p.expand f).Ensures H' R G (fun _ _ => True) t := by
  induction p generalizing t with
  | ret a => trivial
  | raise e => trivial
  | call c k ih =>
    rw [expand, ensures_bind, ensures_outcome]
    exact (hf c hp.1 t).post fun x t' _ => ih x (hp.2 x) t'

end Prog

end Effects
