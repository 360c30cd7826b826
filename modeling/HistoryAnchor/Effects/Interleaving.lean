import HistoryAnchor.Effects.Program

/-! # Two interleaved programs

Each step answers one call of either program. If what one program does lies
within what the other relies on, then every reachable configuration still
satisfies both judgements.
-/

namespace Effects

open Prog

variable {E : Type → Type} {ε α β : Type} {σ : Type*}

/-- A shared state and what is left of the two programs. -/
structure Threads (E : Type → Type) (ε α β : Type) (σ : Type*) where
  state : σ
  left : Prog E ε α
  right : Prog E ε β

namespace Threads

/-- One call of one of the two programs is answered. -/
inductive Step (H₁ H₂ : Handler E ε σ) : Threads E ε α β σ → Threads E ε α β σ → Prop
  | left {γ : Type} {c : E γ} {k : Except ε γ → Prog E ε α} {q : Prog E ε β} {s s' : σ}
      {x : Except ε γ} : H₁ c s x s' → Step H₁ H₂ ⟨s, .call c k, q⟩ ⟨s', k x, q⟩
  | right {γ : Type} {c : E γ} {k : Except ε γ → Prog E ε β} {p : Prog E ε α} {s s' : σ}
      {x : Except ε γ} : H₂ c s x s' → Step H₁ H₂ ⟨s, p, .call c k⟩ ⟨s', p, k x⟩

abbrev Steps (H₁ H₂ : Handler E ε σ) :
    Threads E ε α β σ → Threads E ε α β σ → Prop :=
  Relation.ReflTransGen (Step H₁ H₂)

section Rely

variable {H₁ H₂ : Handler E ε σ} {G₁ G₂ : σ → σ → Prop}
  {Q₁ : Except ε α → σ → Prop} {Q₂ : Except ε β → σ → Prop}

theorem Steps.ensures {t t' : Threads E ε α β σ} (h : Steps H₁ H₂ t t')
    (trans₁ : ∀ a b c, G₁ a b → G₁ b c → G₁ a c) (trans₂ : ∀ a b c, G₂ a b → G₂ b c → G₂ a c)
    (refl₁ : ∀ a, G₁ a a) (refl₂ : ∀ a, G₂ a a)
    (stable₁ : ∀ r a b, Q₁ r a → G₂ a b → Q₁ r b) (stable₂ : ∀ r a b, Q₂ r a → G₁ a b → Q₂ r b)
    (left : t.left.Ensures H₁ G₂ G₁ Q₁ t.state) (right : t.right.Ensures H₂ G₁ G₂ Q₂ t.state) :
    t'.left.Ensures H₁ G₂ G₁ Q₁ t'.state ∧ t'.right.Ensures H₂ G₁ G₂ Q₂ t'.state := by
  induction h with
  | refl => exact ⟨left, right⟩
  | tail _ hst ih =>
    obtain ⟨hl, hr⟩ := ih
    cases hst with
    | left hc =>
      obtain ⟨hg, hk⟩ := hl _ (refl₂ _) _ _ hc
      exact ⟨hk, hr.stable trans₁ stable₂ hg⟩
    | right hc =>
      obtain ⟨hg, hk⟩ := hr _ (refl₁ _) _ _ hc
      exact ⟨hl.stable trans₂ stable₁ hg, hk⟩

theorem Steps.invariant {I : σ → Prop} {t t' : Threads E ε α β σ} (h : Steps H₁ H₂ t t')
    (trans₁ : ∀ a b c, G₁ a b → G₁ b c → G₁ a c) (trans₂ : ∀ a b c, G₂ a b → G₂ b c → G₂ a c)
    (refl₁ : ∀ a, G₁ a a) (refl₂ : ∀ a, G₂ a a)
    (left : t.left.Ensures H₁ G₂ G₁ (fun _ _ => True) t.state)
    (right : t.right.Ensures H₂ G₁ G₂ (fun _ _ => True) t.state)
    (keep₁ : ∀ a b, I a → G₁ a b → I b) (keep₂ : ∀ a b, I a → G₂ a b → I b)
    (hI : I t.state) : I t'.state := by
  induction h with
  | refl => exact hI
  | tail h hst ih =>
    obtain ⟨hl, hr⟩ := Steps.ensures h trans₁ trans₂ refl₁ refl₂ (fun _ _ _ _ _ => trivial)
      (fun _ _ _ _ _ => trivial) left right
    cases hst with
    | left hc => exact keep₁ _ _ ih (hl _ (refl₂ _) _ _ hc).1
    | right hc => exact keep₂ _ _ ih (hr _ (refl₁ _) _ _ hc).1

end Rely

end Threads

end Effects
