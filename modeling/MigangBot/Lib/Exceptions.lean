import Mathlib.Algebra.GroupWithZero.Nat

namespace MigangBot.Lib.Exceptions

/-- How an evaluation can fail to return: an exception leaves it, the program
ends, or the language gives it no meaning. -/
inductive Fault (ε : Type)
  | thrown (e : ε)
  | terminate
  | undefined
  deriving DecidableEq, Repr

abbrev Outcome (ε α : Type) := Except (Fault ε) α

variable {ε α β : Type}

def throwing (e : ε) : Outcome ε α := .error (.thrown e)

/-- A function body declared noexcept: an exception that would leave it ends
the program instead. -/
def noexcept : Outcome ε α → Outcome ε α
  | .error (.thrown _) => .error .terminate
  | r => r

def catching (handler : ε → Option α) : Outcome ε α → Outcome ε α
  | .error (.thrown e) =>
      match handler e with
      | some a => .ok a
      | none => throwing e
  | r => r

def Returns (x : Outcome ε α) : Prop := ∃ a, x = .ok a

@[simp] theorem returns_ok (a : α) : Returns (.ok a : Outcome ε α) := ⟨a, rfl⟩

@[simp] theorem returns_pure (a : α) : Returns (pure a : Outcome ε α) := ⟨a, rfl⟩

@[simp] theorem not_returns_error (e : Fault ε) : ¬ Returns (.error e : Outcome ε α) := by
  rintro ⟨a, h⟩
  cases h

theorem bind_eq_ok {x : Outcome ε α} {f : α → Outcome ε β} {b : β} :
    x >>= f = .ok b ↔ ∃ a, x = .ok a ∧ f a = .ok b := by
  cases x with
  | error e => simp [bind, Except.bind]
  | ok a => simp [bind, Except.bind]

theorem returns_bind {x : Outcome ε α} {f : α → Outcome ε β} :
    Returns (x >>= f) ↔ ∃ a, x = .ok a ∧ Returns (f a) := by
  simp only [Returns, bind_eq_ok]
  constructor
  · rintro ⟨b, a, hx, hf⟩
    exact ⟨a, hx, b, hf⟩
  · rintro ⟨a, hx, b, hf⟩
    exact ⟨b, a, hx, hf⟩

@[simp] theorem ok_bind (a : α) (f : α → Outcome ε β) : ((.ok a : Outcome ε α) >>= f) = f a := rfl

@[simp] theorem error_bind (e : Fault ε) (f : α → Outcome ε β) :
    ((.error e : Outcome ε α) >>= f) = .error e := rfl

@[simp] theorem throwing_bind (e : ε) (f : α → Outcome ε β) :
    ((throwing e : Outcome ε α) >>= f) = throwing e := rfl

theorem noexcept_eq_ok {x : Outcome ε α} {a : α} : noexcept x = .ok a ↔ x = .ok a := by
  rcases x with (_ | _ | _) | _ <;> simp [noexcept]

theorem returns_noexcept {x : Outcome ε α} : Returns (noexcept x) ↔ Returns x := by
  simp only [Returns, noexcept_eq_ok]

theorem noexcept_ne_thrown (x : Outcome ε α) (e : ε) : noexcept x ≠ .error (.thrown e) := by
  rcases x with (_ | _ | _) | _ <;> simp [noexcept]

theorem catching_of_ne_thrown (handler : ε → Option α) {x : Outcome ε α}
    (h : ∀ e, x ≠ .error (.thrown e)) : catching handler x = x := by
  rcases x with (e | _ | _) | _
  · exact absurd rfl (h e)
  · rfl
  · rfl
  · rfl

def Catchable (x : Outcome ε α) : Prop := ∀ f, x = .error f → ∃ e, f = .thrown e

@[simp] theorem catchable_ok (a : α) : Catchable (.ok a : Outcome ε α) := by
  intro f h
  cases h

@[simp] theorem catchable_pure (a : α) : Catchable (pure a : Outcome ε α) := catchable_ok a

@[simp] theorem catchable_throwing (e : ε) : Catchable (throwing e : Outcome ε α) := by
  intro f h
  cases h
  exact ⟨e, rfl⟩

@[simp] theorem not_catchable_undefined : ¬ Catchable (.error .undefined : Outcome ε α) := by
  intro h
  obtain ⟨e, he⟩ := h _ rfl
  cases he

@[simp] theorem not_returns_throwing (e : ε) : ¬ Returns (throwing e : Outcome ε α) := not_returns_error _

theorem returns_catching {handler : ε → Option α} (hh : ∀ e, (handler e).isSome = true)
    {x : Outcome ε α} : Returns (catching handler x) ↔ Catchable x := by
  rcases x with (e | _ | _) | a
  · obtain ⟨b, hb⟩ := Option.isSome_iff_exists.mp (hh e)
    simp only [catching, hb, returns_ok, true_iff]
    exact catchable_throwing e
  · simp only [catching, not_returns_error, false_iff]
    intro hc
    obtain ⟨e, he⟩ := hc _ rfl
    cases he
  · simp only [catching, not_returns_error, not_catchable_undefined]
  · simp only [catching, returns_ok, catchable_ok]

theorem catchable_bind {x : Outcome ε α} {f : α → Outcome ε β} {p : Prop}
    (hf : ∀ a, Catchable (f a) ↔ p) : Catchable (x >>= f) ↔ Catchable x ∧ (Returns x → p) := by
  cases x with
  | ok a => simp [hf]
  | error e =>
      simp only [error_bind, not_returns_error, false_implies, and_true]
      constructor <;>
      · intro h e' he'
        cases he'
        exact h e rfl

theorem returns_bind_iff {x : Outcome ε α} {f : α → Outcome ε β} {p : Prop}
    (hf : ∀ a, x = .ok a → (Returns (f a) ↔ p)) : Returns (x >>= f) ↔ Returns x ∧ p := by
  rw [returns_bind]
  constructor
  · rintro ⟨a, hx, hr⟩
    exact ⟨⟨a, hx⟩, (hf a hx).mp hr⟩
  · rintro ⟨⟨a, hx⟩, hp⟩
    exact ⟨a, hx, (hf a hx).mpr hp⟩

@[simp] theorem returns_map {x : Outcome ε α} {f : α → β} : Returns (f <$> x) ↔ Returns x := by
  rw [map_eq_pure_bind, returns_bind_iff (fun _ _ => iff_true_intro (returns_pure _)), and_true]

@[simp] theorem catchable_map {x : Outcome ε α} {f : α → β} : Catchable (f <$> x) ↔ Catchable x := by
  rw [map_eq_pure_bind, catchable_bind (fun _ => iff_true_intro (catchable_pure _))]
  simp

theorem mapM_cons_eq_ok {f : α → Outcome ε β} {a : α} {as : List α} {bs : List β} :
    (a :: as).mapM f = .ok bs ↔ ∃ b bs', f a = .ok b ∧ as.mapM f = .ok bs' ∧ bs = b :: bs' := by
  simp only [List.mapM_cons, bind_eq_ok, pure, Except.pure, Except.ok.injEq, eq_comm (b := bs)]
  constructor
  · rintro ⟨b, hb, bs', hbs, h⟩
    exact ⟨b, bs', hb, hbs, h⟩
  · rintro ⟨b, bs', hb, hbs, h⟩
    exact ⟨b, hb, bs', hbs, h⟩

theorem returns_mapM {f : α → Outcome ε β} {as : List α} :
    Returns (as.mapM f) ↔ ∀ a ∈ as, Returns (f a) := by
  induction as with
  | nil => simp
  | cons a as ih =>
      rw [List.mapM_cons, List.forall_mem_cons, ← ih]
      refine returns_bind_iff fun b _ => ?_
      rw [returns_bind_iff (fun _ _ => iff_true_intro (returns_pure _)), and_true]

theorem mapM_eq_map {f : α → Outcome ε β} {g : α → β} {as : List α} {bs : List β}
    (hf : ∀ a b, f a = .ok b → b = g a) (h : as.mapM f = .ok bs) : bs = as.map g := by
  induction as generalizing bs with
  | nil =>
      cases h
      rfl
  | cons a as ih =>
      obtain ⟨b, bs', hb, hbs, rfl⟩ := mapM_cons_eq_ok.mp h
      rw [List.map_cons, hf a b hb, ih hbs]

theorem mapM_congr {f g : α → Outcome ε β} {as : List α} (h : ∀ a ∈ as, f a = g a) :
    as.mapM f = as.mapM g := by
  induction as with
  | nil => rfl
  | cons a as ih =>
      rw [List.forall_mem_cons] at h
      rw [List.mapM_cons, List.mapM_cons, h.1, ih h.2]

theorem mapM_flatten (f : α → Outcome ε β) (ass : List (List α)) :
    ass.flatten.mapM f = List.flatten <$> ass.mapM (fun as => as.mapM f) := by
  induction ass with
  | nil => rfl
  | cons as ass ih =>
      rw [List.flatten_cons, List.mapM_append, List.mapM_cons, ih]
      cases as.mapM f with
      | error e => rfl
      | ok bs =>
          simp only [ok_bind]
          cases ass.mapM (fun as => as.mapM f) <;> rfl

theorem mapM_measure {f : α → Outcome ε β} {as : List α} {bs : List β} (size : β → Nat) (weight : α → Nat)
    (hf : ∀ a b, f a = .ok b → size b = weight a) (h : as.mapM f = .ok bs) :
    (bs.map size).sum = (as.map weight).sum := by
  induction as generalizing bs with
  | nil =>
      cases h
      rfl
  | cons a as ih =>
      obtain ⟨b, bs', hb, hbs, rfl⟩ := mapM_cons_eq_ok.mp h
      rw [List.map_cons, List.map_cons, List.sum_cons, List.sum_cons, hf a b hb, ih hbs]

/-- Of parts evaluated in turn, each has to be good as long as all before it
have succeeded. -/
def InOrder (good succeeds : α → Prop) : List α → Prop
  | [] => True
  | a :: as => good a ∧ (succeeds a → InOrder good succeeds as)

theorem catchable_mapM {f : α → Outcome ε β} {xs : List α} :
    Catchable (xs.mapM f) ↔ InOrder (fun a => Catchable (f a)) (fun a => Returns (f a)) xs := by
  induction xs with
  | nil => simp [InOrder]
  | cons a xs ih =>
      rw [List.mapM_cons, InOrder]
      apply catchable_bind
      intro b
      rw [← ih, catchable_bind (fun _ => iff_true_intro (catchable_pure _))]
      simp

end MigangBot.Lib.Exceptions
