import MigangBot.Lib.Effects
import Mathlib.Data.List.Basic

namespace MigangBot.Lib.Courses

open Lib.Exceptions Lib.Effects Lib.Effects.Act

variable {σ δ ε α β φ ψ ι : Type} {apply : σ → δ → σ} {kept : σ → φ}

section Settling

/-- What steps have given back in the end was there at every moment. -/
def Settled (apply : σ → δ → σ) (kept : σ → φ) : Prop :=
  ∀ s (ds ds' : List δ), kept ((ds ++ ds').foldl apply s) = kept s → kept (ds.foldl apply s) = kept s

/-- Whatever changes is larger in one of several sizes, none of which shrinks. -/
theorem settled_of_growing {size : ι → φ → Nat} (hmono : ∀ s d i, size i (kept s) ≤ size i (kept (apply s d)))
    (hgrow : ∀ s d, kept (apply s d) = kept s ∨ ∃ i, size i (kept s) < size i (kept (apply s d))) :
    Settled apply kept := by
  have hall (s : σ) (ds : List δ) (i : ι) : size i (kept s) ≤ size i (kept (ds.foldl apply s)) := by
    induction ds generalizing s with
    | nil => exact Nat.le_refl _
    | cons d ds ih => exact Nat.le_trans (hmono s d i) (ih (apply s d))
  intro s ds ds' h
  induction ds generalizing s with
  | nil => rfl
  | cons d ds ih =>
      rw [List.cons_append, List.foldl_cons] at h
      rw [List.foldl_cons]
      rcases hgrow s d with hsame | ⟨i, hi⟩
      · rw [← hsame] at h ⊢
        exact ih _ h
      · have hlast := hall (apply s d) (ds ++ ds') i
        rw [h] at hlast
        omega

theorem Settled.prod {kept' : σ → ψ} (h : Settled apply kept) (h' : Settled apply kept') :
    Settled apply fun s => (kept s, kept' s) := by
  intro s ds ds' heq
  obtain ⟨hfst, hsnd⟩ := Prod.mk.inj heq
  exact Prod.ext (h s ds ds' hfst) (h' s ds ds' hsnd)

/-- The computation returns, and what is kept is as it was. -/
structure Idles (kept : σ → φ) (x : Act apply ε α) (s : σ) (a : α) (t : σ) : Prop where
  runs : Runs x s a t
  same : kept t = kept s

/-- The computation ends in an exception, and what is kept is as it was. -/
structure Halts (kept : σ → φ) (x : Act apply ε α) (s t : σ) : Prop where
  stops : Stops x s t
  same : kept t = kept s

variable {x : Act apply ε α} {f : α → Act apply ε β} {s t u : σ} {a : α} {b : β}

theorem Settled.after (hkept : Settled apply kept) {y : Act apply ε β}
    (h : kept (y.after (x.after s)) = kept s) : kept (x.after s) = kept s := by
  apply hkept s (x.steps s) (y.steps (x.after s))
  rwa [List.foldl_append]

theorem idles_bind (hkept : Settled apply kept) :
    Idles kept (x >>= f) s b u ↔ ∃ a t, Idles kept x s a t ∧ Idles kept (f a) t b u := by
  constructor
  · intro h
    obtain ⟨hruns, hsame⟩ := h
    obtain ⟨a, t, hx, hf⟩ := runs_bind.mp hruns
    have hmid : kept t = kept s := by
      rw [← hx.after]
      exact hkept.after (y := f a) (by rw [hx.after, hf.after, hsame])
    exact ⟨a, t, ⟨hx, hmid⟩, hf, hsame.trans hmid.symm⟩
  · intro h
    obtain ⟨a, t, hx, hf⟩ := h
    exact ⟨runs_bind.mpr ⟨a, t, hx.runs, hf.runs⟩, hf.same.trans hx.same⟩

theorem halts_bind (hkept : Settled apply kept) :
    Halts kept (x >>= f) s u ↔ Halts kept x s u ∨ ∃ a t, Idles kept x s a t ∧ Halts kept (f a) t u := by
  constructor
  · intro h
    obtain ⟨hstops, hsame⟩ := h
    rcases stops_bind.mp hstops with hx | ⟨a, t, hx, hf⟩
    · exact .inl ⟨hx, hsame⟩
    · have hmid : kept t = kept s := by
        rw [← hx.after]
        exact hkept.after (y := f a) (by rw [hx.after, hf.after, hsame])
      exact .inr ⟨a, t, ⟨hx, hmid⟩, hf, hsame.trans hmid.symm⟩
  · intro h
    rcases h with hx | ⟨a, t, hx, hf⟩
    · exact ⟨stops_bind.mpr (.inl hx.stops), hx.same⟩
    · exact ⟨stops_bind.mpr (.inr ⟨a, t, hx.runs, hf.stops⟩), hf.same.trans hx.same⟩

end Settling

/-- How a part of a computation can go without a trace: to its end, or up to an
exception. -/
@[ext] structure Course where
  passes : Prop
  stops : Prop

namespace Course

def done : Course := ⟨True, False⟩

def andThen (c d : Course) : Course := ⟨c.passes ∧ d.passes, c.stops ∨ c.passes ∧ d.stops⟩

/-- What is done leaves no trace only if that is so. -/
def quiet (p : Prop) : Course := ⟨p, False⟩

def check (p : Prop) : Course := ⟨p, ¬ p⟩

/-- Where there is no value an exception is thrown. -/
def value (x : Option α) (c : α → Course) : Course :=
  match x with
  | none => ⟨False, True⟩
  | some a => c a

/-- An exception leaves no trace only if that is so, too. -/
def leaving (c : Course) (p : Prop) : Course := ⟨c.passes, c.stops ∧ p⟩

/-- Turn after turn is passed, each with those before it. -/
def Passed (c : List α → α → Course) : List α → List α → Prop
  | _, [] => True
  | before, a :: as => (c before a).passes ∧ Passed c (before ++ [a]) as

/-- A loop that fills something up, and how that is to be left. -/
def filling (as : List α) (c : List α → α → Course) (left : List α → Prop) : Course where
  passes := Passed c [] as ∧ left as
  stops := ∃ before a after, as = before ++ a :: after ∧ Passed c [] before ∧ (c before a).stops ∧ left before

def along (as : List α) (c : α → Course) : Course where
  passes := ∀ a ∈ as, (c a).passes
  stops := ∃ before a after, as = before ++ a :: after ∧ (∀ b ∈ before, (c b).passes) ∧ (c a).stops

theorem quiet_andThen_stops {p : Prop} {c : Course} : ((quiet p).andThen c).stops ↔ p ∧ c.stops := by
  rw [andThen, quiet, false_or]

theorem done_andThen (c : Course) : done.andThen c = c := by
  ext <;> simp [andThen, done]

theorem andThen_done (c : Course) : c.andThen done = c := by
  ext <;> simp [andThen, done]

theorem andThen_assoc (c d e : Course) : (c.andThen d).andThen e = c.andThen (d.andThen e) := by
  ext
  · exact and_assoc
  · simp only [andThen]
    rw [or_assoc, and_or_left, and_assoc]

theorem along_nil {c : α → Course} : along [] c = done := by
  ext <;> simp [along, done]

theorem along_cons {a : α} {as : List α} {c : α → Course} : along (a :: as) c = (c a).andThen (along as c) := by
  ext
  · rw [along, List.forall_mem_cons]
    rfl
  · constructor
    · intro h
      obtain ⟨before, b, after, has, hbefore, hstops⟩ := h
      rcases List.cons_eq_append_iff.mp has with ⟨rfl, heq⟩ | ⟨before, rfl, rfl⟩
      · cases heq
        exact .inl hstops
      · obtain ⟨ha, hbefore⟩ := List.forall_mem_cons.mp hbefore
        exact .inr ⟨ha, before, b, after, rfl, hbefore, hstops⟩
    · intro h
      rcases h with hstops | ⟨ha, before, b, after, rfl, hbefore, hstops⟩
      · exact ⟨[], a, as, rfl, by simp, hstops⟩
      · exact ⟨a :: before, b, after, rfl, List.forall_mem_cons.mpr ⟨ha, hbefore⟩, hstops⟩

end Course

open Course

/-- Where it leaves what is kept as it was, the computation goes as the course
has it: to a value and a state, or no further than to its start. -/
structure Follows (kept : σ → φ) (x : Act apply ε α) (s : σ) (c : Course) (a : α) (t : σ) : Prop where
  idles : ∀ b u, Idles kept x s b u ↔ c.passes ∧ b = a ∧ u = t
  halts : ∀ u, Halts kept x s u ↔ c.stops ∧ u = s

section Following

variable {x : Act apply ε α} {f : α → Act apply ε β} {s t u : σ} {a : α} {b : β} {c d : Course}

theorem follows_of_runs (hruns : ∀ b u, Runs x s b u ↔ c.passes ∧ b = a ∧ u = s)
    (hstops : ∀ u, Stops x s u ↔ c.stops ∧ u = s) : Follows kept x s c a s where
  idles b u := by
    constructor
    · intro h
      exact (hruns b u).mp h.runs
    · intro h
      exact ⟨(hruns b u).mpr h, congrArg kept h.2.2⟩
  halts u := by
    constructor
    · intro h
      exact (hstops u).mp h.stops
    · intro h
      exact ⟨(hstops u).mpr h, congrArg kept h.2⟩

theorem follows_pure : Follows kept (pure a : Act apply ε α) s done a s :=
  follows_of_runs (fun b u => by rw [runs_pure, done, true_and]) fun u => by simp [done]

theorem follows_read : Follows kept (read : Act apply ε σ) s done s s :=
  follows_of_runs (fun b u => by rw [runs_read, done, true_and]) fun u => by simp [done]

theorem follows_perform {d : δ} {p : Prop} (hd : kept (apply s d) = kept s ↔ p) (ht : p → apply s d = t) :
    Follows kept (perform d : Act apply ε Unit) s (quiet p) () t where
  idles v u := by
    constructor
    · intro h
      obtain ⟨hruns, hsame⟩ := h
      obtain rfl := runs_perform.mp hruns
      exact ⟨hd.mp hsame, rfl, ht (hd.mp hsame)⟩
    · intro h
      obtain ⟨hp, _, rfl⟩ := h
      rw [← ht hp]
      exact ⟨runs_perform.mpr rfl, hd.mpr hp⟩
  halts u := by
    refine iff_of_false (fun h => not_stops_perform h.stops) ?_
    intro h'
    obtain ⟨h, _⟩ := h'
    exact h

theorem Follows.halts_bind (hkept : Settled apply kept) (h : Follows kept x s c a t) :
    Halts kept (x >>= f) s u ↔ c.stops ∧ u = s ∨ c.passes ∧ Halts kept (f a) t u := by
  rw [Courses.halts_bind hkept, h.halts]
  simp only [h.idles]
  constructor
  · intro h'
    rcases h' with hx | ⟨_, _, ⟨hpass, rfl, rfl⟩, hf⟩
    · exact .inl hx
    · exact .inr ⟨hpass, hf⟩
  · intro h'
    rcases h' with hx | ⟨hpass, hf⟩
    · exact .inl hx
    · exact .inr ⟨a, t, ⟨hpass, rfl, rfl⟩, hf⟩

theorem Follows.halts_bind_done (hkept : Settled apply kept) (h : Follows kept x s done a t) :
    Halts kept (x >>= f) s u ↔ Halts kept (f a) t u := by
  rw [h.halts_bind hkept]
  simp [done]

/-- What is left of the computation gets to a state only under a condition,
without which it has not got there before either. -/
theorem Follows.halts_bind_iff (hkept : Settled apply kept) {p : Prop} (h : Follows kept x s c a t) (hp : u = s ↔ p)
    (hf : Halts kept (f a) t u ↔ p ∧ d.stops) : Halts kept (x >>= f) s u ↔ p ∧ (c.andThen d).stops := by
  rw [h.halts_bind hkept, hp, hf, Course.andThen]
  constructor
  · intro h'
    rcases h' with ⟨hstops, hp⟩ | ⟨hpass, hp, hstops⟩
    · exact ⟨hp, .inl hstops⟩
    · exact ⟨hp, .inr ⟨hpass, hstops⟩⟩
  · intro h'
    rcases h' with ⟨hp, hstops | ⟨hpass, hstops⟩⟩
    · exact .inl ⟨hstops, hp⟩
    · exact .inr ⟨hpass, hp, hstops⟩

theorem Follows.halts_bind_leaving (hkept : Settled apply kept) {p : Prop} (h : Follows kept x s c a t) (hp : u = s ↔ p)
    (hf : Halts kept (f a) t u ↔ d.stops) : Halts kept (x >>= f) s u ↔ ((c.leaving p).andThen d).stops := by
  rw [h.halts_bind hkept, hp, hf]
  rfl

theorem Follows.bind (hkept : Settled apply kept) (h : Follows kept x s c a s) (hf : Follows kept (f a) s d b t) :
    Follows kept (x >>= f) s (c.andThen d) b t where
  idles b' u := by
    rw [idles_bind hkept, Course.andThen]
    simp only [h.idles]
    constructor
    · intro h'
      obtain ⟨_, _, ⟨hpass, rfl, rfl⟩, hrest⟩ := h'
      obtain ⟨hd, hb, hu⟩ := (hf.idles b' u).mp hrest
      exact ⟨⟨hpass, hd⟩, hb, hu⟩
    · intro h'
      obtain ⟨⟨hpass, hd⟩, hb, hu⟩ := h'
      exact ⟨a, s, ⟨hpass, rfl, rfl⟩, (hf.idles b' u).mpr ⟨hd, hb, hu⟩⟩
  halts u := by
    rw [h.halts_bind hkept, hf.halts, Course.andThen]
    constructor
    · intro h'
      rcases h' with ⟨hstops, hu⟩ | ⟨hpass, hstops, hu⟩
      · exact ⟨.inl hstops, hu⟩
      · exact ⟨.inr ⟨hpass, hstops⟩, hu⟩
    · intro h'
      rcases h' with ⟨hstops | ⟨hpass, hstops⟩, hu⟩
      · exact .inl ⟨hstops, hu⟩
      · exact .inr ⟨hpass, hstops, hu⟩

theorem Follows.bind_done (hkept : Settled apply kept) (h : Follows kept x s done a t)
    (hf : Follows kept (f a) t done b u) : Follows kept (x >>= f) s done b u where
  idles b' v := by
    rw [idles_bind hkept]
    simp [h.idles, hf.idles, done]
  halts v := by
    rw [h.halts_bind_done hkept, hf.halts]
    simp [done]

theorem Follows.bind_of_not_passes (hkept : Settled apply kept) (h : Follows kept x s c a t) (hc : ¬ c.passes) :
    Follows kept (x >>= f) s c b u where
  idles b' v := by
    rw [idles_bind hkept]
    simp [h.idles, hc]
  halts v := by
    rw [h.halts_bind hkept]
    simp [hc]

theorem follows_bind_read (hkept : Settled apply kept) {f : σ → Act apply ε β} (h : Follows kept (f s) s c b t) :
    Follows kept (read >>= f) s c b t := by
  rw [← done_andThen c]
  exact follows_read.bind hkept h

/-- Nothing comes after an exception. -/
theorem follows_bind_throwing {e : ε} : Follows kept (lift (throwing e) >>= f) s ⟨False, True⟩ b t where
  idles b' u := by
    refine iff_of_false (fun h => ?_) And.left
    cases h.runs.outcome
  halts u := by
    rw [true_and]
    constructor
    · intro h
      exact h.stops.after.symm
    · rintro rfl
      exact ⟨⟨⟨e, rfl⟩, rfl⟩, rfl⟩

theorem follows_bind_fault {e : Fault ε} (he : ∀ e', e ≠ .thrown e') :
    Follows kept (lift (.error e) >>= f) s ⟨False, False⟩ b t where
  idles b' u := by
    refine iff_of_false (fun h => ?_) And.left
    cases h.runs.outcome
  halts u := by
    refine iff_of_false (fun h => ?_) And.left
    obtain ⟨e', h⟩ := h.stops.outcome
    cases h
    exact he e' rfl

end Following

section Loops

variable {s t : σ}

theorem follows_each (hkept : Settled apply kept) {body : α → Act apply ε Unit} {c : α → Course}
    (hbody : ∀ a, Follows kept (body a) s (c a) () s) (as : List α) :
    Follows kept (each as body) s (along as c) () s := by
  induction as with
  | nil =>
      rw [along_nil]
      exact follows_pure
  | cons a as ih =>
      rw [along_cons]
      exact (hbody a).bind hkept ih

theorem follows_each_done (hkept : Settled apply kept) {body : α → Act apply ε Unit} {g : List α → σ}
    (hbody : ∀ before a, Follows kept (body a) (g before) done () (g (before ++ [a]))) (before as : List α) :
    Follows kept (each as body) (g before) done () (g (before ++ as)) := by
  induction as generalizing before with
  | nil =>
      rw [List.append_nil]
      exact follows_pure
  | cons a as ih =>
      have hrest := ih (before ++ [a])
      rw [List.append_assoc] at hrest
      exact (hbody before a).bind_done hkept hrest

theorem follows_fold (hkept : Settled apply kept) {body : β → α → Act apply ε β} {c : α → Course} {g : β → α → β}
    (hbody : ∀ b a, Follows kept (body b a) s (c a) (g b a) s) (as : List α) (b : β) :
    Follows kept (fold as b body) s (along as c) (as.foldl g b) s := by
  induction as generalizing b with
  | nil =>
      rw [along_nil]
      exact follows_pure
  | cons a as ih =>
      rw [along_cons]
      exact (hbody b a).bind hkept (ih (g b a))

variable {body : α → Act apply ε Unit} {as before : List α} {g : List α → σ} {c : List α → α → Course}
  (hkept : Settled apply kept)
  (hbody : ∀ before a, Follows kept (body a) (g before) (c before a) () (g (before ++ [a])))

include hkept hbody

/-- A loop whose turns change the state, from one to the next. -/
theorem idles_each : Idles kept (each as body) (g before) () t ↔ Passed c before as ∧ t = g (before ++ as) := by
  induction as generalizing before with
  | nil => rw [each, follows_pure.idles, done, Passed, List.append_nil, eq_self, true_and]
  | cons a as ih =>
      rw [each, idles_bind hkept, Passed]
      simp only [(hbody before a).idles]
      constructor
      · intro h
        obtain ⟨_, m, ⟨ha, _, rfl⟩, hrest⟩ := h
        obtain ⟨has, ht⟩ := ih.mp hrest
        exact ⟨⟨ha, has⟩, by simpa using ht⟩
      · intro h
        obtain ⟨⟨ha, has⟩, ht⟩ := h
        exact ⟨(), _, ⟨ha, trivial, rfl⟩, ih.mpr ⟨has, by simpa using ht⟩⟩

theorem halts_each : Halts kept (each as body) (g before) t ↔ ∃ past a after, as = past ++ a :: after ∧
    Passed c before past ∧ (c (before ++ past) a).stops ∧ t = g (before ++ past) := by
  induction as generalizing before with
  | nil =>
      rw [each, follows_pure.halts]
      simp [done]
  | cons a as ih =>
      rw [each, (hbody before a).halts_bind hkept, ih]
      constructor
      · intro h
        rcases h with ⟨hstops, ht⟩ | ⟨ha, past, a', after, rfl, hpast, hstops, ht⟩
        · exact ⟨[], a, as, rfl, trivial, by simpa using hstops, by simpa using ht⟩
        · exact ⟨a :: past, a', after, rfl, ⟨ha, hpast⟩, by simpa using hstops, by simpa using ht⟩
      · intro h
        obtain ⟨past, a', after, has, hpast, hstops, ht⟩ := h
        rcases List.cons_eq_append_iff.mp has with ⟨rfl, heq⟩ | ⟨past, rfl, rfl⟩
        · cases heq
          exact .inl ⟨by simpa using hstops, by simpa using ht⟩
        · obtain ⟨ha, hpast⟩ := hpast
          exact .inr ⟨ha, past, a', after, rfl, hpast, by simpa using hstops, by simpa using ht⟩

theorem halts_bind_each {f : Unit → Act apply ε β} {d : Course} {p : Prop} {left : List α → Prop}
    (hleft : ∀ before, t = g before ↔ p ∧ left before)
    (hf : Halts kept (f ()) (g as) t ↔ (p ∧ left as) ∧ d.stops) :
    Halts kept (each as body >>= f) (g []) t ↔ p ∧ ((filling as c left).andThen d).stops := by
  rw [halts_bind hkept, halts_each hkept hbody]
  simp only [idles_each hkept hbody]
  constructor
  · intro h
    rcases h with ⟨past, a, after, has, hpast, hstops, ht⟩ | ⟨_, m, ⟨hpass, rfl⟩, hrest⟩
    · obtain ⟨hp, hl⟩ := (hleft past).mp ht
      exact ⟨hp, .inl ⟨past, a, after, has, hpast, hstops, hl⟩⟩
    · obtain ⟨⟨hp, hl⟩, hstops⟩ := hf.mp hrest
      exact ⟨hp, .inr ⟨⟨hpass, hl⟩, hstops⟩⟩
  · intro h
    rcases h with ⟨hp, ⟨past, a, after, has, hpast, hstops, hl⟩ | ⟨⟨hpass, hl⟩, hstops⟩⟩
    · exact .inl ⟨past, a, after, has, hpast, hstops, (hleft past).mpr ⟨hp, hl⟩⟩
    · exact .inr ⟨(), _, ⟨hpass, rfl⟩, hf.mpr ⟨⟨hp, hl⟩, hstops⟩⟩

end Loops

end MigangBot.Lib.Courses
