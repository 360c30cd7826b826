import Mathlib.Data.Nat.Notation
import Mathlib.Logic.Relation

/-! # Programs over calls

A program is a tree of calls to its environment. A handler says which answers
a call may get and what it does to the state; whole runs, single steps and
rely-guarantee judgements are all read off the same tree, so that a function
translated once can be run alone, stopped anywhere or interleaved.
-/

namespace Effects

variable {E : Type → Type} {ε α β γ : Type} {σ : Type*}

/-- A program over calls in `E`; every call either answers or raises an `ε`. -/
inductive Prog (E : Type → Type) (ε α : Type) : Type 1
  | ret (a : α)
  | raise (e : ε)
  | call {β : Type} (c : E β) (k : Except ε β → Prog E ε α)

/-- The answers that a call may get in a state, each with the state after it. -/
abbrev Handler (E : Type → Type) (ε : Type) (σ : Type*) :=
  ∀ ⦃β : Type⦄, E β → σ → Except ε β → σ → Prop

namespace Prog

def bind : Prog E ε α → (α → Prog E ε β) → Prog E ε β
  | ret a, f => f a
  | raise e, _ => raise e
  | call c k, f => call c fun x => (k x).bind f

instance : Monad (Prog E ε) where
  pure := ret
  bind := bind

def ofExcept : Except ε α → Prog E ε α
  | .ok a => ret a
  | .error e => raise e

/-- One call; what it raises is raised. -/
def perform (c : E α) : Prog E ε α := call c ofExcept

/-- The outcome of a program as a value: what it raises is returned. -/
def outcome : Prog E ε α → Prog E ε (Except ε α)
  | ret a => ret (.ok a)
  | raise e => ret (.error e)
  | call c k => call c fun x => (k x).outcome

@[simp] theorem pure_eq (a : α) : (pure a : Prog E ε α) = ret a := rfl
@[simp] theorem bind_eq (p : Prog E ε α) (f : α → Prog E ε β) : (p >>= f) = p.bind f := rfl
@[simp] theorem ret_bind (a : α) (f : α → Prog E ε β) : (ret a).bind f = f a := rfl
@[simp] theorem raise_bind (e : ε) (f : α → Prog E ε β) : (raise e).bind f = raise e := rfl

theorem bind_ret (p : Prog E ε α) : p.bind ret = p := by
  induction p with
  | ret a => rfl
  | raise e => rfl
  | call c k ih => simp only [bind, ih]

theorem bind_assoc (p : Prog E ε α) (f : α → Prog E ε β) (g : β → Prog E ε γ) :
    (p.bind f).bind g = p.bind fun a => (f a).bind g := by
  induction p with
  | ret a => rfl
  | raise e => rfl
  | call c k ih => simp only [bind, ih]

instance : LawfulMonad (Prog E ε) := LawfulMonad.mk' (Prog E ε) bind_ret (fun _ _ => rfl) bind_assoc

/-- A run of the program to its end: its outcome and the state after it. -/
def Exec (H : Handler E ε σ) : Prog E ε α → σ → Except ε α → σ → Prop
  | ret a, s, r, s' => r = .ok a ∧ s' = s
  | raise e, s, r, s' => r = .error e ∧ s' = s
  | call c k, s, r, s' => ∃ x s₁, H c s x s₁ ∧ (k x).Exec H s₁ r s'

/-- One step of a program: the call at its root is answered. -/
inductive Step (H : Handler E ε σ) : Prog E ε α × σ → Prog E ε α × σ → Prop
  | call {β : Type} {c : E β} {k : Except ε β → Prog E ε α} {s s' : σ} {x : Except ε β} :
      H c s x s' → Step H (call c k, s) (k x, s')

/-- The program has run for some steps, perhaps not to its end. -/
abbrev Steps (H : Handler E ε σ) : Prog E ε α × σ → Prog E ε α × σ → Prop :=
  Relation.ReflTransGen (Step H)

/-- Between the program's calls the environment changes the state within `R`; then every call
changes it within `G`, and the outcome satisfies `Q`. -/
def Ensures (H : Handler E ε σ) (R G : σ → σ → Prop) :
    Prog E ε α → (Except ε α → σ → Prop) → σ → Prop
  | ret a, Q, s => Q (.ok a) s
  | raise e, Q, s => Q (.error e) s
  | call c k, Q, s => ∀ s₁, R s s₁ → ∀ x s₂, H c s₁ x s₂ → G s₁ s₂ ∧ (k x).Ensures H R G Q s₂

/-- What a program ensures when it runs alone, with `G` holding of the state after each call. -/
abbrev Alone (H : Handler E ε σ) (G : σ → Prop) (p : Prog E ε α)
    (Q : Except ε α → σ → Prop) (s : σ) : Prop :=
  p.Ensures H Eq (fun _ s' => G s') Q s

/-- Extend a postcondition by what the rest of the program needs after a normal return. -/
def thenOk (P : α → σ → Prop) (Q : ε → σ → Prop) : Except ε α → σ → Prop
  | .ok a, s => P a s
  | .error e, s => Q e s

@[simp] theorem thenOk_ok (P : α → σ → Prop) (Q : ε → σ → Prop) (a : α) (s : σ) :
    thenOk P Q (.ok a) s = P a s := rfl
@[simp] theorem thenOk_error (P : α → σ → Prop) (Q : ε → σ → Prop) (e : ε) (s : σ) :
    thenOk P Q (.error e) s = Q e s := rfl

section Rules

variable {H : Handler E ε σ} {R G : σ → σ → Prop} {s : σ}

@[simp] theorem ensures_ret {a : α} {Q : Except ε α → σ → Prop} :
    (ret a).Ensures H R G Q s ↔ Q (.ok a) s := Iff.rfl

@[simp] theorem ensures_raise {e : ε} {Q : Except ε α → σ → Prop} :
    (raise e).Ensures H R G Q s ↔ Q (.error e) s := Iff.rfl

theorem ensures_call {c : E β} {k : Except ε β → Prog E ε α} {Q : Except ε α → σ → Prop} :
    (call c k).Ensures H R G Q s ↔
      ∀ s₁, R s s₁ → ∀ x s₂, H c s₁ x s₂ → G s₁ s₂ ∧ (k x).Ensures H R G Q s₂ := Iff.rfl

theorem ensures_bind {p : Prog E ε α} {f : α → Prog E ε β} {Q : Except ε β → σ → Prop} :
    (p.bind f).Ensures H R G Q s ↔
      p.Ensures H R G (thenOk (fun a => (f a).Ensures H R G Q) fun e => Q (.error e)) s := by
  induction p generalizing s with
  | ret a => rfl
  | raise e => rfl
  | call c k ih =>
    simp only [bind, ensures_call, ih]

theorem ensures_ofExcept {x : Except ε α} {Q : Except ε α → σ → Prop} :
    (ofExcept x).Ensures H R G Q s ↔ Q x s := by
  cases x <;> rfl

theorem ensures_perform {c : E α} {Q : Except ε α → σ → Prop} :
    (perform c).Ensures H R G Q s ↔
      ∀ s₁, R s s₁ → ∀ x s₂, H c s₁ x s₂ → G s₁ s₂ ∧ Q x s₂ := by
  simp only [perform, ensures_call, ensures_ofExcept]

theorem ensures_outcome {p : Prog E ε α} {Q : Except ε (Except ε α) → σ → Prop} :
    p.outcome.Ensures H R G Q s ↔ p.Ensures H R G (fun r => Q (.ok r)) s := by
  induction p generalizing s with
  | ret a => rfl
  | raise e => rfl
  | call c k ih => simp only [outcome, ensures_call, ih]

theorem Ensures.mono {R' G' : σ → σ → Prop} {p : Prog E ε α} {Q Q' : Except ε α → σ → Prop}
    (h : p.Ensures H R G Q s) (hR : ∀ s s', R' s s' → R s s') (hG : ∀ s s', G s s' → G' s s')
    (hQ : ∀ r s, Q r s → Q' r s) : p.Ensures H R' G' Q' s := by
  induction p generalizing s with
  | ret a => exact hQ _ _ h
  | raise e => exact hQ _ _ h
  | call c k ih =>
    intro s₁ hr x s₂ hc
    obtain ⟨hg, hk⟩ := h s₁ (hR _ _ hr) x s₂ hc
    exact ⟨hG _ _ hg, ih x hk⟩

theorem Ensures.restrict {H' : Handler E ε σ} {p : Prog E ε α} {Q : Except ε α → σ → Prop}
    (hH : ∀ ⦃β : Type⦄ (c : E β) s x s', H' c s x s' → H c s x s') (h : p.Ensures H R G Q s) :
    p.Ensures H' R G Q s := by
  induction p generalizing s with
  | ret a => exact h
  | raise e => exact h
  | call c k ih =>
    intro s₁ hr x s₂ hc
    obtain ⟨hg, hk⟩ := h s₁ hr x s₂ (hH c s₁ x s₂ hc)
    exact ⟨hg, ih x hk⟩

theorem Ensures.post {p : Prog E ε α} {Q Q' : Except ε α → σ → Prop}
    (h : p.Ensures H R G Q s) (hQ : ∀ r s, Q r s → Q' r s) : p.Ensures H R G Q' s :=
  h.mono (fun _ _ => id) (fun _ _ => id) hQ

theorem Ensures.and {p : Prog E ε α} {Q Q' : Except ε α → σ → Prop} (h : p.Ensures H R G Q s)
    (h' : p.Ensures H R G Q' s) : p.Ensures H R G (fun r s => Q r s ∧ Q' r s) s := by
  induction p generalizing s with
  | ret a => exact ⟨h, h'⟩
  | raise e => exact ⟨h, h'⟩
  | call c k ih =>
    intro s₁ hr x s₂ hc
    obtain ⟨hg, hk⟩ := h s₁ hr x s₂ hc
    exact ⟨hg, ih x hk (h' s₁ hr x s₂ hc).2⟩

theorem Ensures.stable {p : Prog E ε α} {Q : Except ε α → σ → Prop} {s' : σ}
    (htrans : ∀ a b c, R a b → R b c → R a c) (hQ : ∀ r a b, Q r a → R a b → Q r b)
    (h : p.Ensures H R G Q s) (hr : R s s') : p.Ensures H R G Q s' := by
  cases p with
  | ret a => exact hQ _ _ _ h hr
  | raise e => exact hQ _ _ _ h hr
  | call c k => exact fun s₁ hr' => h s₁ (htrans _ _ _ hr hr')

theorem ensures_foldlM {f : γ → β → Prog E ε γ} {xs : List β} {Q : Except ε γ → σ → Prop}
    (I : List β → γ → σ → Prop)
    (step : ∀ ys x zs a s, xs = ys ++ x :: zs → I ys a s →
      (f a x).Ensures H R G (thenOk (I (ys ++ [x])) fun e => Q (.error e)) s)
    (done : ∀ a s, I xs a s → Q (.ok a) s) {a : γ} (hs : I [] a s) :
    (xs.foldlM f a).Ensures H R G Q s := by
  suffices h : ∀ zs ys a s, xs = ys ++ zs → I ys a s → (zs.foldlM f a).Ensures H R G Q s from
    h xs [] a s rfl hs
  intro zs
  induction zs with
  | nil =>
    intro ys a s hx hi
    rw [List.append_nil] at hx
    exact done a s (hx ▸ hi)
  | cons x zs ih =>
    intro ys a s hx hi
    rw [List.foldlM_cons, bind_eq, ensures_bind]
    apply (step ys x zs a s hx hi).post
    intro r s' hr
    cases r with
    | error e => exact hr
    | ok a' => exact ih (ys ++ [x]) a' s' (by simp [hx]) hr

theorem Ensures.exec {p : Prog E ε α} {Q : Except ε α → σ → Prop} {r : Except ε α} {s' : σ}
    (hR : ∀ s, R s s) (h : p.Ensures H R G Q s) (hx : p.Exec H s r s') : Q r s' := by
  induction p generalizing s with
  | ret a => obtain ⟨rfl, rfl⟩ := hx; exact h
  | raise e => obtain ⟨rfl, rfl⟩ := hx; exact h
  | call c k ih =>
    obtain ⟨x, s₁, hc, hk⟩ := hx
    exact ih x (h s (hR s) x s₁ hc).2 hk

theorem Exec.mono {H' : Handler E ε σ} {p : Prog E ε α} {r : Except ε α} {s' : σ}
    (hx : p.Exec H s r s') (hH : ∀ ⦃β : Type⦄ (c : E β) s x s', H c s x s' → H' c s x s') :
    p.Exec H' s r s' := by
  induction p generalizing s with
  | ret a => exact hx
  | raise e => exact hx
  | call c k ih =>
    obtain ⟨x, s₁, hc, hk⟩ := hx
    exact ⟨x, s₁, hH c s x s₁ hc, ih x hk⟩

/-- A run of a sequence is a run of its first part and, after a normal return, one of the rest. -/
theorem exec_bind {p : Prog E ε α} {f : α → Prog E ε β} {r : Except ε β} {s' : σ} :
    (p.bind f).Exec H s r s' ↔ (∃ a s₁, p.Exec H s (.ok a) s₁ ∧ (f a).Exec H s₁ r s') ∨
      ∃ e, p.Exec H s (.error e) s' ∧ r = .error e := by
  induction p generalizing s with
  | ret a =>
    simp only [ret_bind, Exec, Except.ok.injEq, reduceCtorEq, false_and, exists_false, or_false]
    exact ⟨fun h => ⟨a, s, ⟨rfl, rfl⟩, h⟩, fun ⟨_, _, ⟨rfl, rfl⟩, h⟩ => h⟩
  | raise e =>
    simp only [raise_bind, Exec, Except.error.injEq, reduceCtorEq, false_and, exists_false,
      false_or]
    exact ⟨fun ⟨hr, hs⟩ => ⟨e, ⟨rfl, hs⟩, hr⟩, fun ⟨_, ⟨rfl, hs⟩, hr⟩ => ⟨hr, hs⟩⟩
  | call c k ih =>
    simp only [bind, Exec, ih]
    constructor
    · rintro ⟨x, s₁, hc, ⟨a, s₂, hp, hf⟩ | ⟨e, hp, hr⟩⟩
      · exact Or.inl ⟨a, s₂, ⟨x, s₁, hc, hp⟩, hf⟩
      · exact Or.inr ⟨e, ⟨x, s₁, hc, hp⟩, hr⟩
    · rintro (⟨a, s₂, ⟨x, s₁, hc, hp⟩, hf⟩ | ⟨e, ⟨x, s₁, hc, hp⟩, hr⟩)
      · exact ⟨x, s₁, hc, Or.inl ⟨a, s₂, hp, hf⟩⟩
      · exact ⟨x, s₁, hc, Or.inr ⟨e, hp, hr⟩⟩

/-- What is ensured of the state after each call holds wherever the program is stopped. -/
theorem Alone.steps {I : σ → Prop} {p p' : Prog E ε α} {Q : Except ε α → σ → Prop} {s' : σ}
    (h : p.Alone H I Q s) (hs : I s) (hx : Steps H (p, s) (p', s')) :
    I s' ∧ p'.Alone H I Q s' := by
  generalize hm : (p', s') = m at hx
  induction hx generalizing p' s' with
  | refl => cases hm; exact ⟨hs, h⟩
  | tail hx hst ih =>
    cases hst with
    | call hc =>
      obtain ⟨_, hk⟩ := ih rfl
      obtain ⟨rfl, rfl⟩ := Prod.mk.inj hm
      exact hk _ rfl _ _ hc

end Rules

section Preservation

variable {H : Handler E ε σ} {I : σ → Prop}

/-- Run alone, the program keeps an invariant from call to call, whatever its outcome. -/
def Preserves (H : Handler E ε σ) (I : σ → Prop) (p : Prog E ε α) : Prop :=
  ∀ s, I s → p.Alone H I (fun _ => I) s

theorem preserves_ret (a : α) : (ret a : Prog E ε α).Preserves H I := fun _ h => h

theorem preserves_raise (e : ε) : (raise e : Prog E ε α).Preserves H I := fun _ h => h

theorem preserves_ofExcept (x : Except ε α) : (ofExcept x : Prog E ε α).Preserves H I :=
  fun _ h => ensures_ofExcept.mpr h

theorem preserves_perform {c : E α} (h : ∀ s x s', I s → H c s x s' → I s') :
    (perform c : Prog E ε α).Preserves H I := by
  intro s hs
  rw [Alone, ensures_perform]
  rintro _ rfl x s' hc
  exact ⟨h _ x s' hs hc, h _ x s' hs hc⟩

theorem preserves_of_calls (h : ∀ ⦃β : Type⦄ (c : E β) s x s', I s → H c s x s' → I s')
    (p : Prog E ε α) : p.Preserves H I := by
  induction p with
  | ret a => exact preserves_ret a
  | raise e => exact preserves_raise e
  | call c k ih =>
    rintro s hs _ rfl x s' hc
    have hs' := h c _ x s' hs hc
    exact ⟨hs', ih x s' hs'⟩

theorem Preserves.bind {p : Prog E ε α} {f : α → Prog E ε β} (hp : p.Preserves H I)
    (hf : ∀ a, (f a).Preserves H I) : (p.bind f).Preserves H I := by
  intro s hs
  rw [Alone, ensures_bind]
  apply (hp s hs).post
  rintro (e | a) s' h
  · exact h
  · exact hf a s' h

theorem Preserves.outcome {p : Prog E ε α} (hp : p.Preserves H I) : p.outcome.Preserves H I :=
  fun s hs => ensures_outcome.mpr (hp s hs)

theorem preserves_foldlM {f : γ → β → Prog E ε γ} {xs : List β}
    (h : ∀ a, ∀ x ∈ xs, (f a x).Preserves H I) (a : γ) : (xs.foldlM f a).Preserves H I := by
  intro s hs
  apply ensures_foldlM (fun _ _ => I) _ (fun _ _ => id) hs
  intro ys x zs a s hx hI
  apply (h a x (hx ▸ List.mem_append_right ys List.mem_cons_self) s hI).post
  rintro (e | a') s' h'
  · exact h'
  · exact h'

theorem Preserves.exec {p : Prog E ε α} {r : Except ε α} {s s' : σ} (hp : p.Preserves H I)
    (hs : I s) (hx : p.Exec H s r s') : I s' :=
  Ensures.exec (fun _ => rfl) (hp s hs) hx

end Preservation

/-! A handler that always gives one answer can be run. -/

section Interpreter

/-- The one answer of a deterministic handler, with the state after it. -/
abbrev Oracle (E : Type → Type) (ε : Type) (σ : Type*) :=
  ∀ ⦃β : Type⦄, E β → σ → Except ε β × σ

def Obeys (h : Oracle E ε σ) (H : Handler E ε σ) : Prop :=
  ∀ ⦃β : Type⦄ (c : E β) (s : σ), H c s (h c s).1 (h c s).2

def eval (h : Oracle E ε σ) : Prog E ε α → σ → Except ε α × σ
  | ret a, s => (.ok a, s)
  | raise e, s => (.error e, s)
  | call c k, s => (k (h c s).1).eval h (h c s).2

def evalFor (h : Oracle E ε σ) : ℕ → Prog E ε α × σ → Prog E ε α × σ
  | n + 1, (call c k, s) => evalFor h n (k (h c s).1, (h c s).2)
  | _, x => x

variable {h : Oracle E ε σ} {H : Handler E ε σ}

theorem exec_eval (hh : Obeys h H) (p : Prog E ε α) (s : σ) :
    p.Exec H s (p.eval h s).1 (p.eval h s).2 := by
  induction p generalizing s with
  | ret a => exact ⟨rfl, rfl⟩
  | raise e => exact ⟨rfl, rfl⟩
  | call c k ih => exact ⟨_, _, hh c s, ih _ _⟩

theorem exec_eval_ok (hh : Obeys h H) {p : Prog E ε α} {s : σ}
    (hok : (p.eval h s).1.toOption.isSome) : ∃ a, p.Exec H s (.ok a) (p.eval h s).2 := by
  have hx := exec_eval hh p s
  cases hr : (p.eval h s).1 with
  | ok a => exact ⟨a, hr ▸ hx⟩
  | error e =>
    rw [hr] at hok
    cases hok

theorem eval_bind (p : Prog E ε α) (f : α → Prog E ε β) (s : σ) :
    (p.bind f).eval h s = match p.eval h s with
      | (.ok a, s') => (f a).eval h s'
      | (.error e, s') => (.error e, s') := by
  induction p generalizing s with
  | ret a => rfl
  | raise e => rfl
  | call c k ih => exact ih _ _

theorem eval_bind_ok {p : Prog E ε α} {f : α → Prog E ε β} {s s' : σ} {a : α}
    (hp : p.eval h s = (.ok a, s')) : (p.bind f).eval h s = (f a).eval h s' := by
  rw [eval_bind, hp]

theorem steps_evalFor (hh : Obeys h H) (n : ℕ) (x : Prog E ε α × σ) :
    Steps H x (evalFor h n x) := by
  induction n generalizing x with
  | zero => exact .refl
  | succ n ih =>
    obtain ⟨p, s⟩ := x
    cases p with
    | ret a => exact .refl
    | raise e => exact .refl
    | call c k => exact .head (.call (hh c s)) (ih _)

end Interpreter

end Prog

end Effects
