import HistoryAnchor.Effects.Program

/-! # Connections to a transactional store

A program talks to its store in statements. A change opens a transaction, which lasts
until it is committed; any other statement commits by itself unless one is open. A
process that is killed loses what it has not committed.
-/

namespace Effects

variable {S : Type → Type} {ε : Type} {σ : Type*} {α β γ : Type}

inductive Mode
  | plain | change | commit | rollback
  deriving DecidableEq

structure Connection (σ : Type*) where
  committed : σ
  pending : Option σ

namespace Connection

def opened (d : σ) : Connection σ := ⟨d, none⟩

def view (c : Connection σ) : σ := c.pending.getD c.committed

/-- What a statement leaves behind that has turned the view into `d`. -/
def after (c : Connection σ) (d : σ) : Mode → Connection σ
  | .plain => if c.pending.isSome then ⟨c.committed, some d⟩ else opened d
  | .change => ⟨c.committed, some d⟩
  | .commit => opened d
  | .rollback => opened c.committed

@[simp] theorem view_opened (d : σ) : (opened d).view = d := rfl
@[simp] theorem committed_opened (d : σ) : (opened d).committed = d := rfl
@[simp] theorem after_opened_plain (d d' : σ) : (opened d).after d' .plain = opened d' := rfl
@[simp] theorem after_opened_commit (d d' : σ) : (opened d).after d' .commit = opened d' := rfl

@[simp] theorem after_view (c : Connection σ) : c.after c.view .plain = c := by
  rcases c with ⟨d, _ | d'⟩ <;> rfl

/-- What holds of the committed data and of the new holds of what is committed and of the view. -/
theorem after_keeps {I : σ → Prop} {c : Connection σ} {d : σ} (hc : I c.committed) (hd : I d)
    (m : Mode) : I (c.after d m).committed ∧ I (c.after d m).view := by
  cases m with
  | plain =>
    rw [after]
    by_cases hp : c.pending.isSome = true
    · rw [if_pos hp]
      exact ⟨hc, hd⟩
    · rw [if_neg hp]
      exact ⟨hd, hd⟩
  | change => exact ⟨hc, hd⟩
  | commit => exact ⟨hd, hd⟩
  | rollback => exact ⟨hc, hc⟩

end Connection

/-- What the statements of a store do: a statement that fails changes nothing. -/
structure Engine (S : Type → Type) (ε : Type) (σ : Type*) where
  mode : ∀ {β : Type}, S β → Mode
  answer : ∀ {β : Type}, S β → σ → Except ε (β × σ)

namespace Engine

open Prog Connection

variable (e : Engine S ε σ)

def oracle : Oracle S ε (Connection σ) := fun _ s c =>
  match e.answer s c.view with
  | .ok (a, d) => (.ok a, c.after d (e.mode s))
  | .error x => (.error x, c)

variable {e}

theorem oracle_ok {s : S β} {c : Connection σ} {a : β} {d : σ} (h : e.answer s c.view = .ok (a, d)) :
    e.oracle s c = (.ok a, c.after d (e.mode s)) := by
  simp only [oracle, h]

theorem oracle_error {s : S β} {c : Connection σ} {x : ε} (h : e.answer s c.view = .error x) :
    e.oracle s c = (.error x, c) := by
  simp only [oracle, h]

end Engine

namespace Prog

open Connection Engine

def transaction (commit rollback : S Unit) (p : Prog S ε α) : Prog S ε α :=
  p.outcome.bind fun
    | .ok a => (perform commit).bind fun _ => ret a
    | .error x => (perform rollback).bind fun _ => raise x

def script (l : List (S Unit)) : Prog S ε Unit := forM l perform

variable {e : Engine S ε σ} {h : Oracle S ε σ}

theorem evalFor_zero (x : Prog S ε α × σ) : evalFor h 0 x = x := rfl

theorem evalFor_call {c : S β} {k : Except ε β → Prog S ε α} {s : σ} (n : ℕ) :
    evalFor h (n + 1) (call c k, s) = evalFor h n (k (h c s).1, (h c s).2) := rfl

/-- Programs that make only calls that satisfy `P`. -/
def Only (P : ∀ {β : Type}, S β → Prop) : Prog S ε α → Prop
  | ret _ => True
  | raise _ => True
  | call c k => P c ∧ ∀ x, (k x).Only P

theorem evalFor_ret {a : α} {s : σ} (n : ℕ) : evalFor h n (ret a, s) = (ret a, s) := by
  cases n <;> rfl

theorem evalFor_raise {x : ε} {s : σ} (n : ℕ) :
    evalFor h n ((raise x : Prog S ε α), s) = (raise x, s) := by
  cases n <;> rfl

theorem evalFor_add (m n : ℕ) (x : Prog S ε α × σ) :
    evalFor h (m + n) x = evalFor h n (evalFor h m x) := by
  induction m generalizing x with
  | zero => rw [Nat.zero_add, evalFor_zero]
  | succ m ih =>
    obtain ⟨p, s⟩ := x
    cases p with
    | ret a => simp only [evalFor_ret]
    | raise x => simp only [evalFor_raise]
    | call c k => rw [Nat.succ_add, evalFor_call, evalFor_call, ih]

theorem evalFor_eval (n : ℕ) (x : Prog S ε α × σ) :
    (evalFor h n x).1.eval h (evalFor h n x).2 = x.1.eval h x.2 := by
  induction n generalizing x with
  | zero => rfl
  | succ n ih =>
    obtain ⟨p, s⟩ := x
    cases p with
    | ret a => rfl
    | raise x => rfl
    | call c k => rw [evalFor_call, ih]; rfl

theorem eval_perform (s : S α) (c : σ) : (perform s).eval h c = h s c := by
  rcases hx : h s c with ⟨x, c'⟩
  cases x <;> simp only [perform, eval, hx, ofExcept]

theorem eval_outcome (p : Prog S ε α) (s : σ) :
    p.outcome.eval h s = (.ok (p.eval h s).1, (p.eval h s).2) := by
  induction p generalizing s with
  | ret a => rfl
  | raise x => rfl
  | call c k ih => exact ih _ _

theorem eval_transaction {commit rollback : S Unit} {p : Prog S ε α} {a : α} {c c' c'' : σ}
    (hp : p.eval h c = (.ok a, c')) (hc : h commit c' = (.ok (), c'')) :
    (p.transaction commit rollback).eval h c = (.ok a, c'') := by
  simp only [transaction, eval_bind, eval_outcome, hp, eval_perform, hc]
  rfl

theorem exists_evalFor_eval (p : Prog S ε α) (c : σ) :
    ∃ n, (evalFor h n (p, c)).2 = (p.eval h c).2 := by
  induction p generalizing c with
  | ret a => exact ⟨0, rfl⟩
  | raise x => exact ⟨0, rfl⟩
  | call s k ih =>
    obtain ⟨n, hn⟩ := ih _ _
    exact ⟨n + 1, hn⟩

theorem script_cons (s : S Unit) (l : List (S Unit)) :
    (script (s :: l) : Prog S ε Unit) = (perform s).bind fun _ => script l := rfl

theorem script_append (l l' : List (S Unit)) :
    (script (l ++ l') : Prog S ε Unit) = (script l).bind fun _ => script l' := by
  induction l with
  | nil => rfl
  | cons s l ih =>
    rw [List.cons_append, script_cons, script_cons, ih, bind_assoc]

section Only

variable {P : ∀ {β : Type}, S β → Prop}

theorem only_perform {s : S α} (hs : P s) : (perform s : Prog S ε α).Only P := by
  refine ⟨hs, fun x => ?_⟩
  cases x <;> trivial

theorem Only.bind {p : Prog S ε α} {f : α → Prog S ε β} (hp : p.Only P) (hf : ∀ a, (f a).Only P) :
    (p.bind f).Only P := by
  induction p with
  | ret a => exact hf a
  | raise x => trivial
  | call c k ih => exact ⟨hp.1, fun x => ih x (hp.2 x)⟩

theorem Only.outcome {p : Prog S ε α} (hp : p.Only P) : p.outcome.Only P := by
  induction p with
  | ret a => trivial
  | raise x => trivial
  | call c k ih => exact ⟨hp.1, fun x => ih x (hp.2 x)⟩

theorem Only.transaction {commit rollback : S Unit} {p : Prog S ε α} (hc : P commit)
    (hr : P rollback) (hp : p.Only P) : (p.transaction commit rollback).Only P := by
  apply hp.outcome.bind
  rintro (x | a)
  · exact (only_perform hr).bind fun _ => trivial
  · exact (only_perform hc).bind fun _ => trivial

theorem only_script {l : List (S Unit)} (hl : ∀ s ∈ l, P s) :
    (script l : Prog S ε Unit).Only P := by
  induction l with
  | nil => trivial
  | cons s l ih =>
    apply (only_perform (hl s List.mem_cons_self)).bind
    exact fun _ => ih fun s' hs' => hl s' (List.mem_cons_of_mem s hs')

theorem Only.evalFor {I : σ → Prop} {p : Prog S ε α} (hp : p.Only P)
    (step : ∀ {β : Type} (s : S β) c, P s → I c → I (h s c).2) (n : ℕ) {c : σ} (hc : I c) :
    I (evalFor h n (p, c)).2 := by
  induction n generalizing p c with
  | zero => exact hc
  | succ n ih =>
    cases p with
    | ret a => exact hc
    | raise x => exact hc
    | call s k => exact ih (hp.2 _) (step s c hp.1 hc)

end Only

end Prog

namespace Engine

open Prog Connection

variable (e : Engine S ε σ)

def run (l : List (S Unit)) (d : σ) : Except ε σ := l.foldlM (fun d s => Prod.snd <$> e.answer s d) d

variable {e}

theorem run_cons (s : S Unit) (l : List (S Unit)) (d : σ) :
    e.run (s :: l) d = (Prod.snd <$> e.answer s d) >>= e.run l := rfl

theorem run_append (l l' : List (S Unit)) (d : σ) :
    e.run (l ++ l') d = e.run l d >>= e.run l' := by
  exact List.foldlM_append

theorem run_cons_ok {s : S Unit} {l : List (S Unit)} {d d' : σ} :
    e.run (s :: l) d = .ok d' ↔ ∃ d₁, e.answer s d = .ok ((), d₁) ∧ e.run l d₁ = .ok d' := by
  rw [run_cons]
  cases e.answer s d with
  | error x => exact ⟨nofun, nofun⟩
  | ok x => exact ⟨fun h => ⟨x.2, rfl, h⟩, fun ⟨_, hd, h⟩ => by cases hd; exact h⟩

theorem exists_run_of_mem {s : S Unit} {l : List (S Unit)} (hs : s ∈ l) {d d' : σ}
    (h : e.run l d = .ok d') : ∃ l₁ l₂ d₁ d₂, l = l₁ ++ s :: l₂ ∧ e.run l₁ d = .ok d₁ ∧
      e.answer s d₁ = .ok ((), d₂) ∧ e.run l₂ d₂ = .ok d' := by
  induction l generalizing d with
  | nil => cases hs
  | cons s' l ih =>
    obtain ⟨d₁, hd, hl⟩ := run_cons_ok.mp h
    rcases List.mem_cons.mp hs with rfl | hs
    · exact ⟨[], l, d, d₁, rfl, rfl, hd, hl⟩
    · obtain ⟨l₁, l₂, d₂, d₃, rfl, h₁, h₂, h₃⟩ := ih hs hl
      exact ⟨s' :: l₁, l₂, d₂, d₃, rfl, run_cons_ok.mpr ⟨d₁, hd, h₁⟩, h₂, h₃⟩

theorem run_induction {R : σ → σ → Prop} (hrefl : ∀ d, R d d)
    (htrans : ∀ a b c, R a b → R b c → R a c) {l : List (S Unit)}
    (step : ∀ s ∈ l, ∀ d d', e.answer s d = .ok ((), d') → R d d') {d d' : σ}
    (h : e.run l d = .ok d') : R d d' := by
  induction l generalizing d with
  | nil =>
    cases h
    exact hrefl _
  | cons s l ih =>
    obtain ⟨d₁, hs, hl⟩ := run_cons_ok.mp h
    exact htrans _ _ _ (step s List.mem_cons_self d d₁ hs)
      (ih (fun s' hs' => step s' (List.mem_cons_of_mem s hs')) hl)

/-- What the statements of a program keep of the data holds of what it has committed, wherever it
is stopped. -/
theorem keeps {P : ∀ {β : Type}, S β → Prop} {I : σ → Prop} {p : Prog S ε α} (hp : p.Only P)
    (step : ∀ {β : Type} (s : S β) d a d', P s → I d → e.answer s d = .ok (a, d') → I d')
    (n : ℕ) {c : Connection σ} (hc : I c.committed) (hv : I c.view) :
    I (evalFor e.oracle n (p, c)).2.committed ∧ I (evalFor e.oracle n (p, c)).2.view := by
  apply hp.evalFor (I := fun c : Connection σ => I c.committed ∧ I c.view) _ n ⟨hc, hv⟩
  intro β s c hs ⟨hc, hv⟩
  cases ha : e.answer s c.view with
  | error x =>
    rw [oracle_error ha]
    exact ⟨hc, hv⟩
  | ok x =>
    have hd := step s c.view x.1 x.2 hs hv ha
    rw [oracle_ok ha]
    exact after_keeps hc hd (e.mode s)

theorem evalFor_statement {s : S β} {k : Except ε β → Prog S ε α} {c : Connection σ} {a : β}
    {d : σ} (h : e.answer s c.view = .ok (a, d)) (n : ℕ) :
    evalFor e.oracle (n + 1) (call s k, c) =
      evalFor e.oracle n (k (.ok a), c.after d (e.mode s)) := by
  rw [evalFor_call, oracle_ok h]

theorem evalFor_perform {commit rollback : S Unit} {s : S β} {f : β → Prog S ε α}
    {c : Connection σ} {a : β} {d : σ} (h : e.answer s c.view = .ok (a, d)) (n : ℕ) :
    evalFor e.oracle (n + 1) (((perform s).bind f).transaction commit rollback, c) =
      evalFor e.oracle n ((f a).transaction commit rollback, c.after d (e.mode s)) :=
  evalFor_statement h n

theorem evalFor_failure {s : S β} {k : Except ε β → Prog S ε α} {c : Connection σ} {x : ε}
    (h : e.answer s c.view = .error x) (n : ℕ) :
    evalFor e.oracle (n + 1) (call s k, c) = evalFor e.oracle n (k (.error x), c) := by
  rw [evalFor_call, oracle_error h]

theorem evalFor_perform_error {commit rollback : S Unit} {s : S β} {f : β → Prog S ε α}
    {c : Connection σ} {x : ε} (h : e.answer s c.view = .error x) (n : ℕ) :
    evalFor e.oracle (n + 1) (((perform s).bind f).transaction commit rollback, c) =
      evalFor e.oracle n ((perform rollback).bind fun _ => raise x, c) :=
  evalFor_failure h n

/-- A script inside a transaction block that meets no open transaction: stopped anywhere, the
connection shows what the statements so far have committed. -/
theorem evalFor_script (commit rollback : S Unit) {l : List (S Unit)} {f : Unit → Prog S ε α}
    {d d' : σ} (hmode : ∀ s ∈ l, e.mode s = .plain ∨ e.mode s = .commit)
    (h : e.run l d = .ok d') {k : ℕ} (hk : k ≤ l.length) :
    ∃ p d₁, e.run (l.take k) d = .ok d₁ ∧
      evalFor e.oracle k (((script l).bind f).transaction commit rollback, opened d) =
        (p, opened d₁) ∧
      (k = l.length → p = (f ()).transaction commit rollback ∧ d₁ = d') := by
  induction l generalizing d k with
  | nil =>
    obtain rfl := Nat.le_zero.mp hk
    cases h
    exact ⟨_, _, rfl, rfl, fun _ => ⟨rfl, rfl⟩⟩
  | cons s l ih =>
    obtain ⟨d₂, hs, hl⟩ := run_cons_ok.mp h
    cases k with
    | zero => exact ⟨_, d, rfl, rfl, nofun⟩
    | succ k =>
      obtain ⟨p, d₁, ht, he, hp⟩ := ih (fun s' hs' => hmode s' (List.mem_cons_of_mem s hs')) hl
        (Nat.le_of_succ_le_succ hk)
      have horacle : e.oracle s (opened d) = (.ok (), opened d₂) := by
        rw [oracle_ok hs]
        rcases hmode s List.mem_cons_self with hm | hm
        · rw [hm, after_opened_plain]
        · rw [hm, after_opened_commit]
      refine ⟨p, d₁, run_cons_ok.mpr ⟨d₂, hs, ht⟩, ?_, fun hk' => hp (Nat.succ.inj hk')⟩
      rw [← he]
      exact (evalFor_call k).trans (by rw [horacle]; rfl)

end Engine

end Effects
