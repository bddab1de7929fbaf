import MigangBot.Lib.Exceptions

namespace MigangBot.Lib.Effects

open Lib.Exceptions

variable {σ δ ε α β : Type} {apply : σ → δ → σ}

/-- A computation on a state that only its steps change. One that ends in an
exception keeps the steps it has taken. -/
def Act (_apply : σ → δ → σ) (ε α : Type) : Type := σ → List δ × Outcome ε α

/-- What only goes through one field of a state. -/
theorem foldl_field {φ : Type} (get : σ → φ) (set : σ → φ → σ) (step : φ → α → φ)
    (hget : ∀ s v, get (set s v) = v) (hset : ∀ s v w, set (set s v) w = set s w) (hself : ∀ s, set s (get s) = s)
    (as : List α) (s : σ) : as.foldl (fun s a => set s (step (get s) a)) s = set s (as.foldl step (get s)) := by
  induction as generalizing s with
  | nil => exact (hself s).symm
  | cons a as ih => rw [List.foldl_cons, ih, hget, hset, List.foldl_cons]

namespace Act

def steps (x : Act apply ε α) (s : σ) : List δ := (x s).1

def outcome (x : Act apply ε α) (s : σ) : Outcome ε α := (x s).2

def after (x : Act apply ε α) (s : σ) : σ := (x.steps s).foldl apply s

def returning (a : α) : Act apply ε α := fun _ => ([], .ok a)

def andThen (x : Act apply ε α) (f : α → Act apply ε β) : Act apply ε β := fun s =>
  match x.outcome s with
  | .ok a => (x.steps s ++ (f a).steps (x.after s), (f a).outcome (x.after s))
  | .error e => (x.steps s, .error e)

instance : Monad (Act apply ε) where
  pure := returning
  bind := andThen

def perform (d : δ) : Act apply ε Unit := fun _ => ([d], .ok ())

def read : Act apply ε σ := fun s => ([], .ok s)

def lift (x : Outcome ε α) : Act apply ε α := fun _ => ([], x)

/-- What is thrown goes to the handler, in the state that it leaves. -/
def recover (x : Act apply ε α) (handler : ε → Act apply ε α) : Act apply ε α := fun s =>
  match x.outcome s with
  | .error (.thrown e) =>
      (x.steps s ++ (handler e).steps (x.after s), (handler e).outcome (x.after s))
  | r => (x.steps s, r)

def each : List α → (α → Act apply ε Unit) → Act apply ε Unit
  | [], _ => pure ()
  | a :: as, body => body a >>= fun _ => each as body

def fold : List α → β → (β → α → Act apply ε β) → Act apply ε β
  | [], b, _ => pure b
  | a :: as, b, body => body b a >>= fun b => fold as b body

/-- The computation returns, with a value and in a state. -/
structure Runs (x : Act apply ε α) (s : σ) (a : α) (t : σ) : Prop where
  outcome : x.outcome s = .ok a
  after : x.after s = t

theorem runs_pure {a b : α} {s t : σ} : Runs (pure a : Act apply ε α) s b t ↔ b = a ∧ t = s := by
  constructor
  · intro h
    exact ⟨(Except.ok.inj h.outcome).symm, h.after.symm⟩
  · intro h
    obtain ⟨rfl, rfl⟩ := h
    exact ⟨rfl, rfl⟩

theorem runs_perform {d : δ} {s t : σ} {u : Unit} :
    Runs (perform d : Act apply ε Unit) s u t ↔ t = apply s d := by
  constructor
  · intro h
    exact h.after.symm
  · rintro rfl
    exact ⟨rfl, rfl⟩

theorem runs_read {s t v : σ} : Runs (read : Act apply ε σ) s v t ↔ v = s ∧ t = s := by
  constructor
  · intro h
    exact ⟨(Except.ok.inj h.outcome).symm, h.after.symm⟩
  · intro h
    obtain ⟨rfl, rfl⟩ := h
    exact ⟨rfl, rfl⟩

theorem runs_lift {x : Outcome ε α} {a : α} {s t : σ} :
    Runs (lift x : Act apply ε α) s a t ↔ x = .ok a ∧ t = s := by
  constructor
  · intro h
    exact ⟨h.outcome, h.after.symm⟩
  · intro h
    obtain ⟨rfl, rfl⟩ := h
    exact ⟨rfl, rfl⟩

section Sequence

variable {x : Act apply ε α} {f : α → Act apply ε β} {s : σ}

theorem bind_of_ok {a : α} (h : x.outcome s = .ok a) :
    (x >>= f) s = (x.steps s ++ (f a).steps (x.after s), (f a).outcome (x.after s)) := by
  change andThen x f s = _
  rw [andThen, h]

theorem bind_of_error {e : Fault ε} (h : x.outcome s = .error e) : (x >>= f) s = (x.steps s, .error e) := by
  change andThen x f s = _
  rw [andThen, h]

theorem outcome_bind {a : α} (h : x.outcome s = .ok a) : (x >>= f).outcome s = (f a).outcome (x.after s) := by
  rw [outcome, bind_of_ok h]

theorem after_bind {a : α} (h : x.outcome s = .ok a) : (x >>= f).after s = (f a).after (x.after s) := by
  rw [after, steps, bind_of_ok h, List.foldl_append]
  rfl

theorem outcome_bind_error {e : Fault ε} (h : x.outcome s = .error e) : (x >>= f).outcome s = .error e := by
  rw [outcome, bind_of_error h]

theorem after_bind_error {e : Fault ε} (h : x.outcome s = .error e) : (x >>= f).after s = x.after s := by
  rw [after, steps, bind_of_error h]
  rfl

theorem steps_bind {a : α} (h : x.outcome s = .ok a) :
    (x >>= f).steps s = x.steps s ++ (f a).steps (x.after s) := by
  rw [steps, bind_of_ok h]

theorem steps_bind_error {e : Fault ε} (h : x.outcome s = .error e) : (x >>= f).steps s = x.steps s := by
  rw [steps, bind_of_error h]

/-- A part of the state that neither computation changes, however they end. -/
theorem field_after_bind {φ : Type} {get : σ → φ} (hx : ∀ s, get (x.after s) = get s)
    (hf : ∀ a s, get ((f a).after s) = get s) (s : σ) : get ((x >>= f).after s) = get s := by
  cases h : x.outcome s with
  | ok a => rw [after_bind h, hf, hx]
  | error e => rw [after_bind_error h, hx]

theorem bind_bind {γ : Type} {g : β → Act apply ε γ} : x >>= f >>= g = x >>= fun a => f a >>= g := by
  funext s
  apply Prod.ext
  · change (x >>= f >>= g).steps s = (x >>= fun a => f a >>= g).steps s
    cases hx : x.outcome s with
    | error e => rw [steps_bind_error (outcome_bind_error hx), steps_bind_error hx, steps_bind_error hx]
    | ok a =>
        rw [steps_bind hx]
        cases hf : (f a).outcome (x.after s) with
        | error e => rw [steps_bind_error ((outcome_bind hx).trans hf), steps_bind hx, steps_bind_error hf]
        | ok b =>
            rw [steps_bind ((outcome_bind hx).trans hf), steps_bind hx, steps_bind hf, after_bind hx,
              List.append_assoc]
  · change (x >>= f >>= g).outcome s = (x >>= fun a => f a >>= g).outcome s
    cases hx : x.outcome s with
    | error e => rw [outcome_bind_error (outcome_bind_error hx), outcome_bind_error hx]
    | ok a =>
        rw [outcome_bind hx]
        cases hf : (f a).outcome (x.after s) with
        | error e => rw [outcome_bind_error ((outcome_bind hx).trans hf), outcome_bind_error hf]
        | ok b => rw [outcome_bind ((outcome_bind hx).trans hf), outcome_bind hf, after_bind hx]

theorem runs_bind {u : σ} {b : β} : Runs (x >>= f) s b u ↔ ∃ a t, Runs x s a t ∧ Runs (f a) t b u := by
  cases hx : x.outcome s with
  | error e =>
      constructor
      · intro h
        cases (outcome_bind_error hx).symm.trans h.outcome
      · intro h'
        obtain ⟨a, t, h, _⟩ := h'
        cases hx.symm.trans h.outcome
  | ok a =>
      constructor
      · intro h
        exact ⟨a, _, ⟨hx, rfl⟩, (outcome_bind hx).symm.trans h.outcome, (after_bind hx).symm.trans h.after⟩
      · intro h'
        obtain ⟨a', t, ⟨h, rfl⟩, hf⟩ := h'
        cases h.symm.trans hx
        exact ⟨(outcome_bind hx).trans hf.outcome, (after_bind hx).trans hf.after⟩

end Sequence

section Recovery

variable {x : Act apply ε α} {handler : ε → Act apply ε α} {s : σ}

theorem recover_of_thrown {e : ε} (h : x.outcome s = .error (.thrown e)) : recover x handler s =
    (x.steps s ++ (handler e).steps (x.after s), (handler e).outcome (x.after s)) := by
  rw [recover, h]

theorem outcome_recover {e : ε} (h : x.outcome s = .error (.thrown e)) :
    (recover x handler).outcome s = (handler e).outcome (x.after s) := by
  rw [outcome, recover_of_thrown h]

theorem after_recover {e : ε} (h : x.outcome s = .error (.thrown e)) :
    (recover x handler).after s = (handler e).after (x.after s) := by
  rw [after, steps, recover_of_thrown h, List.foldl_append]
  rfl

theorem recover_of_ne_thrown (h : ∀ e, x.outcome s ≠ .error (.thrown e)) :
    recover x handler s = (x.steps s, x.outcome s) := by
  rw [recover]
  rcases hx : x.outcome s with (e | _ | _) | a
  · exact absurd hx (h e)
  · rfl
  · rfl
  · rfl

theorem runs_recover {t : σ} {a : α} : Runs (recover x handler) s a t ↔
    Runs x s a t ∨ ∃ e, x.outcome s = .error (.thrown e) ∧ Runs (handler e) (x.after s) a t := by
  by_cases hx : ∃ e, x.outcome s = .error (.thrown e)
  · obtain ⟨e, hx⟩ := hx
    constructor
    · intro h
      exact .inr ⟨e, hx, (outcome_recover hx).symm.trans h.outcome, (after_recover hx).symm.trans h.after⟩
    · intro h
      rcases h with h | ⟨e', he', h⟩
      · cases h.outcome.symm.trans hx
      · cases hx.symm.trans he'
        exact ⟨(outcome_recover hx).trans h.outcome, (after_recover hx).trans h.after⟩
  · have hne : ∀ e, x.outcome s ≠ .error (.thrown e) := fun e he => hx ⟨e, he⟩
    have hafter : (recover x handler).after s = x.after s := by
      rw [after, steps, recover_of_ne_thrown hne]
      rfl
    have houtcome : (recover x handler).outcome s = x.outcome s := by
      rw [outcome, recover_of_ne_thrown hne]
    constructor
    · intro h
      exact .inl ⟨houtcome.symm.trans h.outcome, hafter.symm.trans h.after⟩
    · intro h
      rcases h with h | ⟨e, he, _⟩
      · exact ⟨houtcome.trans h.outcome, hafter.trans h.after⟩
      · exact absurd he (hne e)

end Recovery

section Stopping

/-- The computation ends in an exception, in a state. -/
structure Stops (x : Act apply ε α) (s t : σ) : Prop where
  outcome : ∃ e, x.outcome s = .error (.thrown e)
  after : x.after s = t

variable {s t : σ}

@[simp] theorem not_stops_pure {a : α} : ¬ Stops (pure a : Act apply ε α) s t := by
  intro h'
  obtain ⟨⟨e, h⟩, _⟩ := h'
  cases h

@[simp] theorem not_stops_perform {d : δ} : ¬ Stops (perform d : Act apply ε Unit) s t := by
  intro h'
  obtain ⟨⟨e, h⟩, _⟩ := h'
  cases h

@[simp] theorem not_stops_read : ¬ Stops (read : Act apply ε σ) s t := by
  intro h'
  obtain ⟨⟨e, h⟩, _⟩ := h'
  cases h

theorem stops_lift {x : Outcome ε α} :
    Stops (lift x : Act apply ε α) s t ↔ (∃ e, x = .error (.thrown e)) ∧ t = s := by
  constructor
  · intro h
    exact ⟨h.outcome, h.after.symm⟩
  · intro h
    obtain ⟨hx, rfl⟩ := h
    exact ⟨hx, rfl⟩

theorem stops_bind {x : Act apply ε α} {f : α → Act apply ε β} :
    Stops (x >>= f) s t ↔ Stops x s t ∨ ∃ a m, Runs x s a m ∧ Stops (f a) m t := by
  cases hx : x.outcome s with
  | error e =>
      constructor
      · intro h
        obtain ⟨⟨e', he⟩, ht⟩ := h
        cases (outcome_bind_error hx).symm.trans he
        exact .inl ⟨⟨e', hx⟩, (after_bind_error hx).symm.trans ht⟩
      · intro h'
        rcases h' with h | ⟨a, m, h, _⟩
        · obtain ⟨e', he⟩ := h.outcome
          cases hx.symm.trans he
          exact ⟨⟨e', outcome_bind_error hx⟩, (after_bind_error hx).trans h.after⟩
        · cases hx.symm.trans h.outcome
  | ok a =>
      constructor
      · intro h
        obtain ⟨⟨e, he⟩, ht⟩ := h
        exact .inr ⟨a, _, ⟨hx, rfl⟩, ⟨e, (outcome_bind hx).symm.trans he⟩, (after_bind hx).symm.trans ht⟩
      · intro h'
        rcases h' with h | ⟨a', m, ⟨h, rfl⟩, hf⟩
        · obtain ⟨e, he⟩ := h.outcome
          cases hx.symm.trans he
        · cases h.symm.trans hx
          obtain ⟨e, he⟩ := hf.outcome
          exact ⟨⟨e, (outcome_bind hx).trans he⟩, (after_bind hx).trans hf.after⟩

theorem stops_recover {x : Act apply ε α} {handler : ε → Act apply ε α} :
    Stops (recover x handler) s t ↔ ∃ e, x.outcome s = .error (.thrown e) ∧ Stops (handler e) (x.after s) t := by
  by_cases hx : ∃ e, x.outcome s = .error (.thrown e)
  · obtain ⟨e, hx⟩ := hx
    constructor
    · intro h
      obtain ⟨he, ht⟩ := h
      rw [outcome_recover hx] at he
      exact ⟨e, hx, he, (after_recover hx).symm.trans ht⟩
    · intro h'
      obtain ⟨e', he', h⟩ := h'
      cases hx.symm.trans he'
      obtain ⟨f, hf⟩ := h.outcome
      exact ⟨⟨f, (outcome_recover hx).trans hf⟩, (after_recover hx).trans h.after⟩
  · constructor
    · intro h
      obtain ⟨⟨e, he⟩, _⟩ := h
      rw [outcome, recover_of_ne_thrown fun e he => hx ⟨e, he⟩] at he
      exact absurd ⟨e, he⟩ hx
    · intro h
      obtain ⟨e, he, _⟩ := h
      exact absurd ⟨e, he⟩ hx

end Stopping

section Loops

variable {body : α → Act apply ε Unit} {as : List α} {s t : σ} {u : Unit}

theorem runs_each_nil : Runs (each [] body) s u t ↔ t = s := by
  rw [each, runs_pure]
  exact and_iff_right rfl

theorem runs_each_cons {a : α} :
    Runs (each (a :: as) body) s u t ↔ ∃ m, Runs (body a) s () m ∧ Runs (each as body) m u t := by
  rw [each, runs_bind]
  exact ⟨fun ⟨_, m, h⟩ => ⟨m, h⟩, fun ⟨m, h⟩ => ⟨(), m, h⟩⟩

theorem Runs.each_forall (h : Runs (each as body) s u t) : ∀ a ∈ as, ∃ s t, Runs (body a) s () t := by
  induction as generalizing s with
  | nil => simp
  | cons a as ih =>
      obtain ⟨m, hbody, hrest⟩ := runs_each_cons.mp h
      rw [List.forall_mem_cons]
      exact ⟨⟨s, m, hbody⟩, ih hrest⟩

/-- What one turn does whenever it returns, a loop does turn by turn. -/
theorem Runs.each_foldl {g : σ → α → σ} (hg : ∀ a ∈ as, ∀ s t, Runs (body a) s () t → t = g s a)
    (h : Runs (each as body) s u t) : t = as.foldl g s := by
  induction as generalizing s with
  | nil => exact runs_each_nil.mp h
  | cons a as ih =>
      obtain ⟨m, hbody, hrest⟩ := runs_each_cons.mp h
      rw [List.foldl_cons, ← hg a List.mem_cons_self s m hbody]
      exact ih (fun b hb => hg b (List.mem_cons_of_mem a hb)) hrest

/-- The same where each turn says from its element alone whether it returns. -/
theorem runs_each {g : σ → α → σ} {p : α → Prop} (hg : ∀ a s t, Runs (body a) s () t ↔ p a ∧ t = g s a) :
    Runs (each as body) s u t ↔ (∀ a ∈ as, p a) ∧ t = as.foldl g s := by
  induction as generalizing s with
  | nil => simp [runs_each_nil]
  | cons a as ih =>
      rw [runs_each_cons, List.forall_mem_cons, List.foldl_cons]
      constructor
      · intro h
        obtain ⟨m, hbody, hrest⟩ := h
        obtain ⟨ha, rfl⟩ := (hg a s m).mp hbody
        obtain ⟨has, ht⟩ := ih.mp hrest
        exact ⟨⟨ha, has⟩, ht⟩
      · intro h
        obtain ⟨⟨ha, has⟩, ht⟩ := h
        exact ⟨_, (hg a s _).mpr ⟨ha, rfl⟩, ih.mpr ⟨has, ht⟩⟩

/-- An invariant of the turns over what is behind them. -/
theorem Runs.each_invariant (I : List α → σ → Prop)
    (hstep : ∀ past a s t, a ∈ as → I past s → Runs (body a) s () t → I (past ++ [a]) t)
    (h : Runs (each as body) s u t) (past : List α) (hs : I past s) : I (past ++ as) t := by
  induction as generalizing s past with
  | nil =>
      rw [runs_each_nil.mp h, List.append_nil]
      exact hs
  | cons a as ih =>
      obtain ⟨m, hbody, hrest⟩ := runs_each_cons.mp h
      have hnext := hstep past a s m List.mem_cons_self hs hbody
      have := ih (fun past b s t hb => hstep past b s t (List.mem_cons_of_mem a hb)) hrest (past ++ [a]) hnext
      rwa [List.append_assoc] at this

/-- A loop that only gathers a value. -/
theorem Runs.fold_foldl {body : β → α → Act apply ε β} {g : β → α → β}
    (hg : ∀ a ∈ as, ∀ b s b' t, Runs (body b a) s b' t → b' = g b a ∧ t = s) {b b' : β}
    (h : Runs (fold as b body) s b' t) : b' = as.foldl g b ∧ t = s := by
  induction as generalizing b s with
  | nil => exact runs_pure.mp h
  | cons a as ih =>
      obtain ⟨c, m, hbody, hrest⟩ := runs_bind.mp h
      obtain ⟨rfl, rfl⟩ := hg a List.mem_cons_self b s c m hbody
      exact ih (fun a' ha' => hg a' (List.mem_cons_of_mem a ha')) hrest

end Loops

end Act

end MigangBot.Lib.Effects
