import Mathlib

namespace Olux.Lib

-- A program that may fail. What it did to the state before it failed stays done.
def Prog (σ ε α : Type) := σ → Except ε α × σ

namespace Prog

variable {σ ε α β : Type}

def done (a : α) : Prog σ ε α := fun s => (.ok a, s)

def fail (e : ε) : Prog σ ε α := fun s => (.error e, s)

def andThen (m : Prog σ ε α) (f : α → Prog σ ε β) : Prog σ ε β := fun s =>
  match m s with
  | (.ok a, t) => f a t
  | (.error e, t) => (.error e, t)

instance : Monad (Prog σ ε) where
  pure := done
  bind := andThen

def act (f : σ → α × σ) : Prog σ ε α := fun s => (.ok (f s).1, (f s).2)

def update (f : σ → σ) : Prog σ ε Unit := fun s => (.ok (), f s)

def read (f : σ → α) : Prog σ ε α := fun s => (.ok (f s), s)

def query (f : σ → Except ε α) : Prog σ ε α := fun s => (f s, s)

def attempt (m : Prog σ ε α) : Prog σ ε (Except ε α) := fun s => (.ok (m s).1, (m s).2)

variable {m : Prog σ ε β}

variable {f : β → Prog σ ε α}

theorem bind_ok {s t : σ} {b : β} (h : m s = (.ok b, t)) : (m >>= f) s = f b t := by
  show andThen m f s = f b t
  rw [andThen, h]

theorem ite_bind (p : Prop) [Decidable p] (m m' : Prog σ ε β) (f : β → Prog σ ε α) :
    (if p then m >>= f else m' >>= f) = (if p then m else m') >>= f := by
  split <;> rfl

def Holds (m : Prog σ ε α) (s : σ) (Q : Except ε α → σ → Prop) : Prop := Q (m s).1 (m s).2

variable {s : σ} {Q Q' : Except ε α → σ → Prop}

theorem Holds.run {m : Prog σ ε α} (h : Holds m s Q) {r : Except ε α} {t : σ} (hr : m s = (r, t)) : Q r t := by
  rwa [Holds, hr] at h

theorem Holds.mono {m : Prog σ ε α} (h : Holds m s Q) (hQ : ∀ r t, Q r t → Q' r t) : Holds m s Q' := hQ _ _ h

@[simp] theorem holds_pure {a : α} : Holds (pure a : Prog σ ε α) s Q ↔ Q (.ok a) s := Iff.rfl

@[simp] theorem holds_fail {e : ε} : Holds (fail e : Prog σ ε α) s Q ↔ Q (.error e) s := Iff.rfl

@[simp] theorem holds_act {f : σ → α × σ} : Holds (act f : Prog σ ε α) s Q ↔ Q (.ok (f s).1) (f s).2 := Iff.rfl

@[simp] theorem holds_update {f : σ → σ} {Q : Except ε Unit → σ → Prop} :
    Holds (update f : Prog σ ε Unit) s Q ↔ Q (.ok ()) (f s) := Iff.rfl

@[simp] theorem holds_read {f : σ → α} : Holds (read f : Prog σ ε α) s Q ↔ Q (.ok (f s)) s := Iff.rfl

@[simp] theorem holds_query {f : σ → Except ε α} : Holds (query f) s Q ↔ Q (f s) s := Iff.rfl

@[simp] theorem holds_attempt {m : Prog σ ε α} {Q : Except ε (Except ε α) → σ → Prop} :
    Holds (attempt m) s Q ↔ Holds m s fun r t => Q (.ok r) t := Iff.rfl

theorem Holds.attempt {m : Prog σ ε α} {P : σ → Prop} (h : Holds m s fun _ t => P t) :
    Holds (attempt m) s fun _ t => P t := h

theorem Holds.bind {R : Except ε β → σ → Prop} (hm : Holds m s R)
    (hok : ∀ b t, R (.ok b) t → Holds (f b) t Q) (herr : ∀ e t, R (.error e) t → Q (.error e) t) :
    Holds (m >>= f) s Q := by
  have hrun : (m >>= f) s = match m s with
    | (.ok b, t) => f b t
    | (.error e, t) => (.error e, t) := rfl
  unfold Holds at hm ⊢
  rw [hrun]
  generalize m s = res at hm
  obtain ⟨r, t⟩ := res
  cases r with
  | ok b => exact hok b t hm
  | error e => exact herr e t hm

theorem Holds.bind_act {g : σ → β × σ} {f : β → Prog σ ε α} (h : Holds (f (g s).1) (g s).2 Q) :
    Holds (act g >>= f) s Q := h

theorem Holds.bind_update {g : σ → σ} {f : Unit → Prog σ ε α} (h : Holds (f ()) (g s) Q) :
    Holds (update g >>= f) s Q := h

theorem Holds.bind_read {g : σ → β} {f : β → Prog σ ε α} (h : Holds (f (g s)) s Q) : Holds (read g >>= f) s Q := h

theorem Holds.bind_eq {t : σ} {b : β} (hm : m s = (.ok b, t))
    (h : Holds (f b) t Q) : Holds (m >>= f) s Q := by
  unfold Holds
  rw [bind_ok hm]
  exact h

end Prog

end Olux.Lib
