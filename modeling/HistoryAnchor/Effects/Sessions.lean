import HistoryAnchor.Effects.Scripts

/-! # Programs beside an environment

One program after another is run, and between any two of their calls the environment
acts on the state. What every program guarantees while it relies on the environment
holds at every moment of such a session.
-/

namespace Effects

namespace Prog

section Embed

variable {E E' : Type → Type} {ε α : Type} {σ τ : Type*} {f : ∀ ⦃β : Type⦄, E β → E' β}
  {H : Handler E ε σ} {H' : Handler E' ε τ} {R G K : τ → τ → Prop}

/-- What a program ensures on its own it ensures among other calls, beside an environment that
leaves its part `π` of the state alone; `K` is what becomes of the rest. -/
theorem Alone.embed {p : Prog E ε α} {Q : Except ε α → σ → Prop} {t : τ} (π : τ → σ)
    (hrefl : ∀ t, K t t) (htrans : ∀ a b c, K a b → K b c → K a c)
    (hR : ∀ t t', R t t' → π t' = π t ∧ K t t')
    (hH : ∀ ⦃β : Type⦄ (c : E β) t x t', H' (f c) t x t' → H c (π t) x (π t') ∧ G t t' ∧ K t t')
    (h : p.Alone H (fun _ => True) Q (π t)) :
    (p.embed f).Ensures H' R G (fun r t' => Q r (π t') ∧ K t t') t := by
  induction p generalizing t with
  | ret a => exact ⟨h, hrefl t⟩
  | raise e => exact ⟨h, hrefl t⟩
  | call c k ih =>
    intro t₁ hr x t₂ hc
    obtain ⟨hπ, hK⟩ := hR t t₁ hr
    obtain ⟨hc', hG, hK'⟩ := hH c t₁ x t₂ hc
    refine ⟨hG, ?_⟩
    rw [hπ] at hc'
    apply (ih x (h _ rfl x _ hc').2).post
    exact fun r t' ⟨hQ, hK''⟩ => ⟨hQ, htrans _ _ _ (htrans _ _ _ hK hK') hK''⟩

end Embed

end Prog

open Prog

section Session

variable {E : Type → Type} {ε α : Type} {σ : Type*} {H : Handler E ε σ} {env R : σ → σ → Prop}
  {ops : Set (Prog E ε α)} {init : σ → Prop}

/-- A moment of a session: what is left of the program that runs, if one does, and the state. -/
inductive Session (H : Handler E ε σ) (env : σ → σ → Prop) (ops : Set (Prog E ε α))
    (init : σ → Prop) : Option (Prog E ε α) → σ → Prop
  | start {s : σ} : init s → Session H env ops init none s
  | env {p : Option (Prog E ε α)} {s s' : σ} :
      Session H env ops init p s → env s s' → Session H env ops init p s'
  | enter {p : Prog E ε α} {s : σ} :
      Session H env ops init none s → p ∈ ops → Session H env ops init (some p) s
  | call {β : Type} {c : E β} {k : Except ε β → Prog E ε α} {s s' : σ} {x : Except ε β} :
      Session H env ops init (some (call c k)) s → H c s x s' →
        Session H env ops init (some (k x)) s'
  | leave {p : Prog E ε α} {s : σ} :
      Session H env ops init (some p) s → (∀ {β} (c : E β) k, p ≠ call c k) →
        Session H env ops init none s

/-- What holds at the start, what the environment keeps and every program that relies on it
guarantees to keep, holds at every moment. -/
theorem Session.invariant {I : σ → Prop} {p : Option (Prog E ε α)} {s : σ}
    (hrefl : ∀ s, R s s) (htrans : ∀ a b c, R a b → R b c → R a c)
    (hinit : ∀ s, init s → I s) (henv : ∀ s s', env s s' → R s s' ∧ (I s → I s'))
    (hops : ∀ p ∈ ops, ∀ s, I s →
      p.Ensures H R (fun s s' => I s → I s') (fun _ _ => True) s)
    (h : Session H env ops init p s) : I s ∧ ∀ q ∈ p,
      q.Ensures H R (fun s s' => I s → I s') (fun _ _ => True) s := by
  induction h with
  | start hs => exact ⟨hinit _ hs, nofun⟩
  | env _ hact ih =>
    obtain ⟨hI, hq⟩ := ih
    obtain ⟨hR, hkeep⟩ := henv _ _ hact
    exact ⟨hkeep hI, fun q hp => (hq q hp).stable htrans (fun _ _ _ _ _ => trivial) hR⟩
  | enter _ hp ih =>
    refine ⟨ih.1, ?_⟩
    rintro q ⟨⟩
    exact hops _ hp _ ih.1
  | call _ hc ih =>
    obtain ⟨hI, hq⟩ := ih
    obtain ⟨hG, hk⟩ := hq _ rfl _ (hrefl _) _ _ hc
    refine ⟨hG hI, ?_⟩
    rintro q ⟨⟩
    exact hk
  | leave _ _ ih => exact ⟨ih.1, nofun⟩

end Session

end Effects
