import HistoryAnchor.Effects.Program

/-! # Scripted calls

Some calls of a program are answered from a script, by their number, and all
others by a handler. The number is a second component of the state which the
other calls leave alone, so that what the handler ensures carries over.
-/

namespace Effects

namespace Prog

variable {E : Type → Type} {ε α β γ : Type} {σ τ : Type*}

/-- Every call that the program may make satisfies `P`. -/
def Calls (P : ∀ ⦃β : Type⦄, E β → Prop) : Prog E ε α → Prop
  | ret _ | raise _ => True
  | call c k => P c ∧ ∀ x, (k x).Calls P

section Calls

variable {P : ∀ ⦃β : Type⦄, E β → Prop}

theorem calls_true (p : Prog E ε α) : p.Calls fun _ _ => True := by
  induction p with
  | ret a => trivial
  | raise e => trivial
  | call c k ih => exact ⟨trivial, ih⟩

theorem Calls.mono {P' : ∀ ⦃β : Type⦄, E β → Prop} {p : Prog E ε α} (hp : p.Calls P)
    (h : ∀ ⦃β : Type⦄ (c : E β), P c → P' c) : p.Calls P' := by
  induction p with
  | ret a => trivial
  | raise e => trivial
  | call c k ih => exact ⟨h c hp.1, fun x => ih x (hp.2 x)⟩

theorem calls_ret (a : α) : (ret a : Prog E ε α).Calls P := trivial

theorem calls_raise (e : ε) : (raise e : Prog E ε α).Calls P := trivial

theorem calls_ofExcept (x : Except ε α) : (ofExcept x).Calls P := by
  cases x <;> trivial

theorem calls_perform {c : E α} (h : P c) : (perform c : Prog E ε α).Calls P :=
  ⟨h, calls_ofExcept⟩

theorem Calls.bind {p : Prog E ε α} {f : α → Prog E ε β} (hp : p.Calls P)
    (hf : ∀ a, (f a).Calls P) : (p.bind f).Calls P := by
  induction p with
  | ret a => exact hf a
  | raise e => trivial
  | call c k ih => exact ⟨hp.1, fun x => ih x (hp.2 x)⟩

theorem calls_foldlM {f : γ → β → Prog E ε γ} (h : ∀ a x, (f a x).Calls P) (xs : List β) (a : γ) :
    (xs.foldlM f a).Calls P := by
  induction xs generalizing a with
  | nil => trivial
  | cons x xs ih => exact (h a x).bind ih

theorem calls_forM {f : β → Prog E ε PUnit} (h : ∀ x, (f x).Calls P) (xs : List β) :
    (forM xs f).Calls P := by
  induction xs with
  | nil => trivial
  | cons x xs ih => exact (h x).bind fun _ => ih

theorem Calls.exec {H H' : Handler E ε σ} {p : Prog E ε α} {r : Except ε α} {s s' : σ}
    (hp : p.Calls P) (hH : ∀ ⦃β : Type⦄ (c : E β) s x s', P c → H c s x s' → H' c s x s')
    (hx : p.Exec H s r s') : p.Exec H' s r s' := by
  induction p generalizing s with
  | ret a => exact hx
  | raise e => exact hx
  | call c k ih =>
    obtain ⟨x, s₁, hc, hk⟩ := hx
    exact ⟨x, s₁, hH c s x s₁ hp.1 hc, ih x (hp.2 x) hk⟩

end Calls

section Simulation

variable {H : Handler E ε σ} {H' : Handler E ε τ} {G : σ → Prop} {P : ∀ ⦃β : Type⦄, E β → Prop}

/-- What a program ensures carries over to a handler whose calls are calls of the first one, seen
through `f`; `K` is what these calls keep beside. -/
theorem Alone.simulate {p : Prog E ε α} {Q : Except ε α → σ → Prop} {t : τ} (f : τ → σ)
    (K : τ → Prop) (hp : p.Calls P)
    (hH : ∀ ⦃β : Type⦄ (c : E β) t x t', P c → K t → H' c t x t' → H c (f t) x (f t') ∧ K t')
    (ht : K t) (h : p.Alone H G Q (f t)) :
    p.Alone H' (fun t' => G (f t') ∧ K t') (fun r t' => Q r (f t') ∧ K t') t := by
  induction p generalizing t with
  | ret a => exact ⟨h, ht⟩
  | raise e => exact ⟨h, ht⟩
  | call c k ih =>
    rintro _ rfl x t' hc
    obtain ⟨hc', ht'⟩ := hH c t x t' hp.1 ht hc
    obtain ⟨hG, hk⟩ := h _ rfl x (f t') hc'
    exact ⟨⟨hG, ht'⟩, ih x (hp.2 x) ht' hk⟩

end Simulation

/-- The answers to the calls that a script covers, by the number of such calls before. -/
abbrev Script (E : Type → Type) (ε : Type) := ∀ ⦃β : Type⦄, E β → Option (ℕ → Except ε β)

/-- The handler with the calls of the script answered from it; the state counts these calls. -/
def numbered (H : Handler E ε σ) (script : Script E ε) : Handler E ε (σ × ℕ) :=
  fun _ c t x t' =>
    match script c with
    | none => H c t.1 x t'.1 ∧ t'.2 = t.2
    | some answer => x = answer t.2 ∧ t' = (t.1, t.2 + 1)

def numberedOracle (h : Oracle E ε σ) (script : Script E ε) : Oracle E ε (σ × ℕ) :=
  fun _ c t =>
    match script c with
    | none => ((h c t.1).1, (h c t.1).2, t.2)
    | some answer => (answer t.2, t.1, t.2 + 1)

section Scripts

variable {H : Handler E ε σ} {script : Script E ε} {G : σ → Prop} {s : σ} {n : ℕ}

theorem obeys_numbered {h : Oracle E ε σ} (hh : Obeys h H) :
    Obeys (numberedOracle h script) (numbered H script) := by
  intro β c t
  unfold numbered numberedOracle
  cases script c with
  | none => exact ⟨hh c t.1, rfl⟩
  | some answer => exact ⟨rfl, rfl⟩

theorem alone_perform_scripted {c : E α} {answer : ℕ → Except ε α} {G : σ × ℕ → Prop}
    {Q : Except ε α → σ × ℕ → Prop} (hc : script c = some answer) :
    (perform c).Alone (numbered H script) G Q (s, n) ↔ G (s, n + 1) ∧ Q (answer n) (s, n + 1) := by
  simp only [ensures_perform, forall_eq', numbered, hc]
  constructor
  · intro h
    exact h _ _ ⟨rfl, rfl⟩
  · rintro h _ _ ⟨rfl, rfl⟩
    exact h

theorem alone_perform_unscripted {c : E α} {G : σ × ℕ → Prop} {Q : Except ε α → σ × ℕ → Prop}
    (hc : script c = none) : (perform c).Alone (numbered H script) G Q (s, n) ↔
      ∀ x s', H c s x s' → G (s', n) ∧ Q x (s', n) := by
  simp only [ensures_perform, forall_eq', numbered, hc]
  constructor
  · intro h x s' hx
    exact h x (s', n) ⟨hx, rfl⟩
  · rintro h x ⟨s', _⟩ ⟨hx, rfl⟩
    exact h x s' hx

theorem Alone.numbered_of_calls {p : Prog E ε α} {Q : Except ε α → σ → Prop}
    (hp : p.Calls fun _ c => script c = none) (h : p.Alone H G Q s) :
    p.Alone (numbered H script) (fun t => G t.1 ∧ t.2 = n) (fun r t => Q r t.1 ∧ t.2 = n) (s, n) := by
  apply Alone.simulate Prod.fst (fun t => t.2 = n) hp _ rfl h
  intro β c t x t' hc ht hx
  simp only [numbered, hc] at hx
  exact ⟨hx.1, hx.2.trans ht⟩

/-- Where a handler allows the answers of the script and those of the other handler, nothing new can
happen. -/
theorem Alone.numbered {H₁ : Handler E ε σ} {p : Prog E ε α} {Q : Except ε α → σ → Prop}
    (hH : ∀ ⦃β : Type⦄ (c : E β) s x s', H₁ c s x s' → H c s x s')
    (hscript : ∀ ⦃β : Type⦄ (c : E β) answer, script c = some answer → ∀ s n, H c s (answer n) s)
    (h : p.Alone H G Q s) :
    p.Alone (Prog.numbered H₁ script) (fun t => G t.1) (fun r t => Q r t.1) (s, n) := by
  have hrun : p.Alone (Prog.numbered H₁ script) (fun t => G t.1 ∧ True)
      (fun r t => Q r t.1 ∧ True) (s, n) := by
    apply Alone.simulate Prod.fst (fun _ => True) (calls_true p) _ trivial h
    intro β c t x t' _ _ hx
    unfold Prog.numbered at hx
    cases hc : script c with
    | none =>
      rw [hc] at hx
      exact ⟨hH c _ _ _ hx.1, trivial⟩
    | some answer =>
      rw [hc] at hx
      obtain ⟨rfl, rfl⟩ := hx
      exact ⟨hscript c answer hc t.1 t.2, trivial⟩
  exact hrun.mono (fun _ _ => id) (fun _ _ h => h.1) fun _ _ h => h.1

end Scripts

section Embed

variable {E' : Type → Type} {f : ∀ ⦃β : Type⦄, E β → E' β} {H : Handler E ε σ} {H' : Handler E' ε σ}
  {R G : σ → σ → Prop} {s s' : σ}

def embed (f : ∀ ⦃β : Type⦄, E β → E' β) : Prog E ε α → Prog E' ε α
  | ret a => ret a
  | raise e => raise e
  | call c k => call (f c) fun x => (k x).embed f

theorem ensures_embed {p : Prog E ε α} {Q : Except ε α → σ → Prop}
    (hf : ∀ ⦃β : Type⦄ (c : E β) s x s', H' (f c) s x s' ↔ H c s x s') :
    (p.embed f).Ensures H' R G Q s ↔ p.Ensures H R G Q s := by
  induction p generalizing s with
  | ret a => rfl
  | raise e => rfl
  | call c k ih => simp only [embed, Ensures, hf, ih]

end Embed

theorem steps_bind_of_exec {H : Handler E ε σ} {p : Prog E ε α} {f : α → Prog E ε β} {s s' : σ}
    {a : α} (h : p.Exec H s (.ok a) s') : Steps H (p.bind f, s) (f a, s') := by
  induction p generalizing s with
  | ret b =>
    obtain ⟨hb, rfl⟩ := h
    rw [Except.ok.inj hb]
    exact .refl
  | raise e => cases h.1
  | call c k ih =>
    obtain ⟨x, s₁, hc, hk⟩ := h
    exact .head (.call hc) (ih x hk)

end Prog

end Effects
