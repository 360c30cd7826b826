import HistoryAnchor.Effects.Scripts

/-! # Pools of programs

Any number of programs share a state. Each may start at any moment and be killed at any
moment, and every step answers one call of one of them. If what each guarantees lies
within what all rely on, then an invariant that each keeps holds throughout, and a
program that runs beside them ends as it ensures.
-/

namespace Effects

namespace Prog

section Embed

variable {E E' : Type → Type} {ε α : Type} {σ τ : Type*} {f : ∀ ⦃β : Type⦄, E β → E' β}
  {H : Handler E ε σ} {H' : Handler E' ε τ} {R G : σ → σ → Prop} {R' G' : τ → τ → Prop}

/-- What a program ensures carries over to where its calls are among others and its state is seen
through `π`: each call is a call there, after which the others may have acted already. `I` is what
is known of the rest. -/
theorem Ensures.embed {p : Prog E ε α} {Q : Except ε α → σ → Prop} {t : τ} (π : τ → σ)
    (I : τ → Prop) (htrans : ∀ a b c, R a b → R b c → R a c)
    (hQ : ∀ r a b, Q r a → R a b → Q r b)
    (hR : ∀ t t', I t → R' t t' → I t' ∧ R (π t) (π t'))
    (hH : ∀ ⦃β : Type⦄ (c : E β) t x t', I t → H' (f c) t x t' →
      ∃ u, H c (π t) x u ∧ (G (π t) u → G' t t' ∧ I t' ∧ R u (π t')))
    (ht : I t) (h : p.Ensures H R G Q (π t)) :
    (p.embed f).Ensures H' R' G' (fun r t' => Q r (π t') ∧ I t') t := by
  induction p generalizing t with
  | ret a => exact ⟨h, ht⟩
  | raise e => exact ⟨h, ht⟩
  | call c k ih =>
    intro t₁ hr x t₂ hc
    obtain ⟨hI, hR₁⟩ := hR t t₁ ht hr
    obtain ⟨u, hu, hstep⟩ := hH c t₁ x t₂ hI hc
    obtain ⟨hg, hk⟩ := h _ hR₁ x u hu
    obtain ⟨hG', hI', hRu⟩ := hstep hg
    exact ⟨hG', ih x hI' (hk.stable htrans hQ hRu)⟩

end Embed

section Invariant

variable {E E' : Type → Type} {ε α : Type} {σ : Type*} {H : Handler E ε σ} {I : σ → Prop} {s : σ}

/-- The invariant holds whenever the others have acted and whenever the program has. -/
abbrev Maintains (H : Handler E ε σ) (I : σ → Prop) (p : Prog E ε α) (Q : Except ε α → σ → Prop)
    (s : σ) : Prop :=
  p.Ensures H (fun _ s' => I s') (fun _ s' => I s') Q s

theorem Calls.maintains {P : ∀ ⦃β : Type⦄, E β → Prop} {p : Prog E ε α} (hp : p.Calls P)
    (h : ∀ ⦃β : Type⦄ (c : E β) s x s', P c → I s → H c s x s' → I s') (s : σ) :
    p.Maintains H I (fun _ _ => True) s := by
  induction p generalizing s with
  | ret a => trivial
  | raise e => trivial
  | call c k ih => exact fun s₁ hs x s₂ hc => ⟨h c s₁ x s₂ hp.1 hs hc, ih x (hp.2 x) s₂⟩

theorem Calls.embed {P : ∀ ⦃β : Type⦄, E β → Prop} {P' : ∀ ⦃β : Type⦄, E' β → Prop}
    {f : ∀ ⦃β : Type⦄, E β → E' β} {p : Prog E ε α} (hp : p.Calls P)
    (h : ∀ ⦃β : Type⦄ (c : E β), P c → P' (f c)) : (p.embed f).Calls P' := by
  induction p with
  | ret a => trivial
  | raise e => trivial
  | call c k ih => exact ⟨h c hp.1, fun x => ih x (hp.2 x)⟩

theorem Ensures.keeping {p : Prog E ε α} {Q : Except ε α → σ → Prop} (hs : I s)
    (h : p.Maintains H I Q s) : p.Ensures H (fun s s' => I s → I s')
      (fun s s' => (I s → I s') ∧ (I s → I s')) Q s := by
  induction p generalizing s with
  | ret a => exact h
  | raise e => exact h
  | call c k ih =>
    intro s₁ hr x s₂ hc
    obtain ⟨hI, hk⟩ := h s₁ (hr hs) x s₂ hc
    exact ⟨⟨fun _ => hI, fun _ => hI⟩, ih x hI hk⟩

end Invariant

end Prog

open Prog

section Pool

variable {E : Type → Type} {ε α γ : Type} {σ : Type*} {H : Handler E ε σ} {R : σ → σ → Prop}
  {ops : Set (Prog E ε α)} {I : σ → Prop} {m m' : List (Prog E ε α) × σ} {s₀ s : σ}

/-- A step of a pool: a program starts, makes a call or is killed. -/
inductive Pool.Step (H : Handler E ε σ) (ops : Set (Prog E ε α)) :
    List (Prog E ε α) × σ → List (Prog E ε α) × σ → Prop
  | start {ps : List (Prog E ε α)} {p : Prog E ε α} {s : σ} :
      p ∈ ops → Step H ops (ps, s) (p :: ps, s)
  | call {before after : List (Prog E ε α)} {β : Type} {c : E β} {k : Except ε β → Prog E ε α}
      {x : Except ε β} {s s' : σ} :
      H c s x s' → Step H ops (before ++ .call c k :: after, s) (before ++ k x :: after, s')
  | stop {before after : List (Prog E ε α)} {p : Prog E ε α} {s : σ} :
      Step H ops (before ++ p :: after, s) (before ++ after, s)

abbrev Pool.Steps (H : Handler E ε σ) (ops : Set (Prog E ε α)) :
    List (Prog E ε α) × σ → List (Prog E ε α) × σ → Prop :=
  Relation.ReflTransGen (Pool.Step H ops)

/-- A moment of a pool: what is left of the programs that run, and the state. -/
abbrev Pool (H : Handler E ε σ) (ops : Set (Prog E ε α)) (s₀ : σ) (ps : List (Prog E ε α)) (s : σ) :
    Prop :=
  Pool.Steps H ops ([], s₀) (ps, s)

/-- One program beside a pool: it makes a call, or the pool makes a step. -/
inductive Beside (H : Handler E ε σ) (ops : Set (Prog E ε α)) :
    Prog E ε γ × List (Prog E ε α) × σ → Prog E ε γ × List (Prog E ε α) × σ → Prop
  | own {ps : List (Prog E ε α)} {β : Type} {c : E β} {k : Except ε β → Prog E ε γ}
      {x : Except ε β} {s s' : σ} : H c s x s' → Beside H ops (.call c k, ps, s) (k x, ps, s')
  | pool {p : Prog E ε γ} {ps ps' : List (Prog E ε α)} {s s' : σ} :
      Pool.Step H ops (ps, s) (ps', s') → Beside H ops (p, ps, s) (p, ps', s')

/-- Relying on `R`, the program guarantees `R` and keeps the invariant, call by call. -/
abbrev Prog.Guards (H : Handler E ε σ) (R : σ → σ → Prop) (I : σ → Prop) (p : Prog E ε α) (s : σ) :
    Prop :=
  p.Ensures H R (fun s s' => R s s' ∧ (I s → I s')) (fun _ _ => True) s

theorem Prog.Guards.bind {β : Type} {p : Prog E ε β} {f : β → Prog E ε α} {s : σ}
    (hp : p.Guards H R I s) (hf : ∀ b s, (f b).Guards H R I s) : (p.bind f).Guards H R I s := by
  rw [Guards, ensures_bind]
  apply hp.post
  rintro (e | b) s' -
  · trivial
  · exact hf b s'

/-- The invariant holds, and every program that runs guarantees it. -/
structure Pool.Guarded (H : Handler E ε σ) (R : σ → σ → Prop) (I : σ → Prop)
    (m : List (Prog E ε α) × σ) : Prop where
  holds : I m.2
  guards : ∀ p ∈ m.1, p.Guards H R I m.2

section Steps

variable (hrefl : ∀ s, R s s) (htrans : ∀ a b c, R a b → R b c → R a c)
  (hops : ∀ p ∈ ops, ∀ s, I s → p.Guards H R I s)

include hrefl htrans hops

theorem Pool.Step.guarded (h : Pool.Step H ops m m') (hm : Guarded H R I m) :
    Guarded H R I m' ∧ R m.2 m'.2 := by
  obtain ⟨hI, hps⟩ := hm
  cases h with
  | start hp => exact ⟨⟨hI, List.forall_mem_cons.mpr ⟨hops _ hp _ hI, hps⟩⟩, hrefl _⟩
  | call hc =>
    obtain ⟨⟨hstep, hkeep⟩, hk⟩ := hps _ (List.mem_append_right _ List.mem_cons_self) _ (hrefl _) _ _ hc
    refine ⟨⟨hkeep hI, fun p hp => ?_⟩, hstep⟩
    -- The others rely on what the step has guaranteed.
    rcases List.mem_append.mp hp with hp | hp
    · exact (hps p (List.mem_append_left _ hp)).stable htrans (fun _ _ _ _ _ => trivial) hstep
    · rcases List.mem_cons.mp hp with rfl | hp
      · exact hk
      · exact (hps p (List.mem_append_right _ (List.mem_cons_of_mem _ hp))).stable htrans
          (fun _ _ _ _ _ => trivial) hstep
  | stop =>
    refine ⟨⟨hI, fun p hp => hps p ?_⟩, hrefl _⟩
    rcases List.mem_append.mp hp with hp | hp
    · exact List.mem_append_left _ hp
    · exact List.mem_append_right _ (List.mem_cons_of_mem _ hp)

theorem Pool.Steps.guarded (h : Pool.Steps H ops m m') (hm : Guarded H R I m) :
    Guarded H R I m' ∧ R m.2 m'.2 := by
  induction h with
  | refl => exact ⟨hm, hrefl _⟩
  | tail _ hst ih =>
    obtain ⟨hg, hR⟩ := ih
    obtain ⟨hg', hR'⟩ := hst.guarded hrefl htrans hops hg
    exact ⟨hg', htrans _ _ _ hR hR'⟩

/-- What holds at the start and every program guards while it relies on the others holds at every
moment. -/
theorem Pool.invariant {ps : List (Prog E ε α)} (h₀ : I s₀) (h : Pool H ops s₀ ps s) :
    Guarded H R I (ps, s) ∧ R s₀ s :=
  Steps.guarded hrefl htrans hops h ⟨h₀, fun _ h => absurd h List.not_mem_nil⟩

/-- A program that runs beside a pool keeps what it ensures, and so does the pool. -/
theorem Beside.ensures {p p' : Prog E ε γ} {ps ps' : List (Prog E ε α)} {s' : σ}
    {Q : Except ε γ → σ → Prop} (hQ : ∀ r a b, Q r a → R a b → Q r b)
    (h : Relation.ReflTransGen (Beside H ops) (p, ps, s) (p', ps', s'))
    (hm : Pool.Guarded H R I (ps, s))
    (hp : p.Ensures H R (fun s s' => R s s' ∧ (I s → I s')) Q s) :
    Pool.Guarded H R I (ps', s') ∧ R s s' ∧
      p'.Ensures H R (fun s s' => R s s' ∧ (I s → I s')) Q s' := by
  generalize hx : (p', ps', s') = x at h
  induction h generalizing p' ps' s' with
  | refl =>
    cases hx
    exact ⟨hm, hrefl _, hp⟩
  | tail _ hst ih =>
    cases hst with
    | own hc =>
      obtain ⟨hg, hR, hp⟩ := ih rfl
      obtain ⟨⟨hstep, hkeep⟩, hk⟩ := hp _ (hrefl _) _ _ hc
      cases hx
      exact ⟨⟨hkeep hg.holds, fun q hq => (hg.guards q hq).stable htrans
        (fun _ _ _ _ _ => trivial) hstep⟩, htrans _ _ _ hR hstep, hk⟩
    | pool hst =>
      obtain ⟨hg, hR, hp⟩ := ih rfl
      cases hx
      obtain ⟨hg', hR'⟩ := hst.guarded hrefl htrans hops hg
      exact ⟨hg', htrans _ _ _ hR hR', hp.stable htrans hQ hR'⟩

end Steps

/-- A program that runs on its own for a while is a program of the pool that runs. -/
theorem Pool.exec {ps : List (Prog E ε α)} {p : Prog E ε α} {r : Except ε α} {s' : σ}
    (h : Pool H ops s₀ (p :: ps) s) (hx : p.Exec H s r s') : ∃ q, Pool H ops s₀ (q :: ps) s' := by
  induction p generalizing s with
  | ret a =>
    obtain ⟨-, rfl⟩ := hx
    exact ⟨_, h⟩
  | raise e =>
    obtain ⟨-, rfl⟩ := hx
    exact ⟨_, h⟩
  | call c k ih =>
    obtain ⟨x, s₁, hc, hk⟩ := hx
    have hstep : Pool.Step H ops ([] ++ .call c k :: ps, s) ([] ++ k x :: ps, s₁) := .call hc
    exact ih x (h.tail hstep) hk

theorem Beside.of_exec {p : Prog E ε γ} {ps : List (Prog E ε α)} {r : Except ε γ} {s' : σ}
    (hx : p.Exec H s r s') :
    Relation.ReflTransGen (Beside H ops) (p, ps, s) (ofExcept r, ps, s') := by
  induction p generalizing s with
  | ret a =>
    obtain ⟨rfl, rfl⟩ := hx
    exact .refl
  | raise e =>
    obtain ⟨rfl, rfl⟩ := hx
    exact .refl
  | call c k ih =>
    obtain ⟨x, s₁, hc, hk⟩ := hx
    exact .head (.own hc) (ih x hk)

end Pool

end Effects
