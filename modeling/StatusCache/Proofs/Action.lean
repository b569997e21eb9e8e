/-
# What an action can do to its state

Lookups and storage operations are actions with a state that outlives an error. What such an action
can do to the state is told by a relation of single steps: the action moves the state by any number
of them (`Moves`). Actions are composed of few pieces, and each composition moves the state only as
its parts do.

What an action ensures is told of the value that it returns and the state that it leaves then
(`Ensures`). Of an action that fails nothing is said. Here too each composition ensures what its
parts do, one after the other.
-/

import Mathlib.Logic.Relation

open Relation (ReflTransGen)

namespace StatusCache

variable {ε σ α β : Type} {E E' : σ → σ → Prop}

/-- An action moves its state by steps of a relation, whether it succeeds or fails. -/
def Moves (E : σ → σ → Prop) (x : ExceptT ε (StateM σ) α) : Prop :=
  ∀ s, ReflTransGen E s (x.run s).2

/-- The second action runs in the state that the first leaves, unless that fails. -/
theorem run_bind (x : ExceptT ε (StateM σ) α) (f : α → ExceptT ε (StateM σ) β) (s : σ) :
    (x >>= f).run s = match x.run s with
      | (.ok a, s') => (f a).run s'
      | (.error e, s') => (.error e, s') := by
  change (match x.run s with | (a, s') => (ExceptT.bindCont f a).run s') = _
  rcases x.run s with ⟨a | a, s'⟩ <;> rfl

/-- Reading the state gives the state and leaves it. -/
theorem run_get (s : σ) : (get : ExceptT ε (StateM σ) σ).run s = (.ok s, s) := rfl

/-- The handler runs in the state that the failing action leaves. -/
theorem run_tryCatch (x : ExceptT ε (StateM σ) α) (handler : ε → ExceptT ε (StateM σ) α) (s : σ) :
    (tryCatch x handler).run s = match x.run s with
      | (.ok a, s') => (.ok a, s')
      | (.error e, s') => (handler e).run s' := by
  change (match x.run s with | (a, s') => StateT.run (match a with
      | .ok a => (Pure.pure (Except.ok a) : StateM σ (Except ε α))
      | .error e => (handler e).run) s') = _
  rcases x.run s with ⟨a | a, s'⟩ <;> rfl

/-- From one state, an action moves by steps of a relation. -/
def MovesFrom (E : σ → σ → Prop) (s : σ) (x : ExceptT ε (StateM σ) α) : Prop :=
  ReflTransGen E s (x.run s).2

/-- Moves from a state go on with what comes next. -/
theorem MovesFrom.bind {x : ExceptT ε (StateM σ) α} {f : α → ExceptT ε (StateM σ) β} {s : σ}
    (hx : MovesFrom E s x) (hf : ∀ a, Moves E (f a)) : MovesFrom E s (x >>= f) := by
  unfold MovesFrom at hx ⊢
  rw [run_bind]
  rcases hrun : x.run s with ⟨e | a, s'⟩ <;> rw [hrun] at hx
  · exact hx
  · exact hx.trans (hf a s')

/-- An action that is run after one that succeeds. -/
theorem run_bind_ok {x : ExceptT ε (StateM σ) α} {f : α → ExceptT ε (StateM σ) β} {a : α}
    {s s' : σ} (h : x.run s = (.ok a, s')) : (x >>= f).run s = (f a).run s' := by
  rw [run_bind, h]

/-- A run that does not fail ends with a result. -/
theorem eq_of_isOk {out : Except ε α × σ} (h : out.1.isOk) (a : α) :
    out = (.ok (out.1.toOption.getD a), out.2) := by
  obtain ⟨e | b, s⟩ := out
  · cases h
  · rfl

namespace Moves

/-- Steps of a relation are steps of a wider one. -/
theorem mono {x : ExceptT ε (StateM σ) α} (hx : Moves E x) (h : ∀ s s', E s s' → E' s s') :
    Moves E' x :=
  fun s => (hx s).lift id h

/-- What does nothing moves nothing. -/
theorem pure (a : α) : Moves E (Pure.pure a : ExceptT ε (StateM σ) α) :=
  fun _ => ReflTransGen.refl

/-- A failure moves nothing. -/
theorem throw (e : ε) : Moves E (throw e : ExceptT ε (StateM σ) α) :=
  fun _ => ReflTransGen.refl

/-- Reading the state moves nothing. -/
theorem get : Moves E (get : ExceptT ε (StateM σ) σ) :=
  fun _ => ReflTransGen.refl

/-- A change of the state is one step. -/
theorem modify {f : σ → σ} (h : ∀ s, E s (f s)) :
    Moves E (modify f : ExceptT ε (StateM σ) Unit) :=
  fun s => ReflTransGen.single (h s)

/-- The steps of two actions, one after the other. -/
theorem bind {x : ExceptT ε (StateM σ) α} {f : α → ExceptT ε (StateM σ) β} (hx : Moves E x)
    (hf : ∀ a, Moves E (f a)) : Moves E (x >>= f) :=
  fun s => MovesFrom.bind (hx s) hf

/-- Both branches move, so the choice between them does. -/
theorem ite {c : Prop} [Decidable c] {x y : ExceptT ε (StateM σ) α} (hx : Moves E x)
    (hy : Moves E y) : Moves E (if c then x else y) := by
  split
  · exact hx
  · exact hy

/-- A first part that is left out in some cases. -/
theorem optional {c : Prop} [Decidable c] {x : ExceptT ε (StateM σ) α}
    {y : ExceptT ε (StateM σ) β} (hx : c → Moves E x) (hy : Moves E y) :
    Moves E (if c then x >>= fun _ => y else y) := by
  split
  next hc => exact bind (hx hc) fun _ => hy
  · exact hy

/-- What catches a failure goes on from the state that the failure left. -/
theorem tryCatch {x : ExceptT ε (StateM σ) α} {handler : ε → ExceptT ε (StateM σ) α}
    (hx : Moves E x) (hhandler : ∀ e, Moves E (handler e)) : Moves E (tryCatch x handler) := by
  intro s
  have hs := hx s
  rw [run_tryCatch]
  rcases hrun : x.run s with ⟨e | a, s'⟩ <;> rw [hrun] at hs
  · exact hs.trans (hhandler e s')
  · exact hs

/-- A fold moves if each of its turns does. -/
theorem foldlM {f : β → α → ExceptT ε (StateM σ) β} (hf : ∀ b a, Moves E (f b a)) (as : List α)
    (b : β) : Moves E (as.foldlM f b) := by
  induction as generalizing b with
  | nil => exact Moves.pure b
  | cons a as ih => exact Moves.bind (hf b a) ih

/-- A loop moves if each of its turns does. -/
theorem forM {f : α → ExceptT ε (StateM σ) PUnit} (hf : ∀ a, Moves E (f a)) (as : List α) :
    Moves E (as.forM f) := by
  induction as with
  | nil => exact Moves.pure PUnit.unit
  | cons a as ih => exact Moves.bind (hf a) fun _ => ih

end Moves

/-! ### What an action ensures -/

/-- From a state of which `P` holds, the action fails, or it returns a value and leaves a state of
which `Q` holds. -/
def Ensures (P : σ → Prop) (Q : α → σ → Prop) (x : ExceptT ε (StateM σ) α) : Prop :=
  ∀ s a s', P s → x.run s = (.ok a, s') → Q a s'

namespace Ensures

variable {P : σ → Prop} {Q : α → σ → Prop} {R : β → σ → Prop}

/-- A value without an action has what holds of it already. -/
theorem pure {a : α} (h : ∀ s, P s → Q a s) :
    Ensures P Q (Pure.pure a : ExceptT ε (StateM σ) α) := by
  rintro s _ _ hs ⟨⟩
  exact h s hs

/-- A failure ensures anything, as there is no result. -/
theorem throw (e : ε) : Ensures P Q (throw e : ExceptT ε (StateM σ) α) := by
  rintro s a s' hs ⟨⟩

/-- What is read is the state itself. -/
theorem get {S : σ → σ → Prop} (h : ∀ s, P s → S s s) :
    Ensures P S (get : ExceptT ε (StateM σ) σ) := by
  rintro s _ _ hs ⟨⟩
  exact h s hs

/-- What holds after a change of the state. -/
theorem modify {f : σ → σ} {S : PUnit → σ → Prop} (h : ∀ s, P s → S ⟨⟩ (f s)) :
    Ensures P S (modify f : ExceptT ε (StateM σ) PUnit) := by
  rintro s _ _ hs ⟨⟩
  exact h s hs

/-- Nothing is asked of the result. -/
theorem trivial (x : ExceptT ε (StateM σ) α) : Ensures P (fun _ _ => True) x :=
  fun _ _ _ _ _ => True.intro

/-- What the first action ensures is what the second one relies on. -/
theorem bind {x : ExceptT ε (StateM σ) α} {f : α → ExceptT ε (StateM σ) β} (hx : Ensures P Q x)
    (hf : ∀ a, Ensures (Q a) R (f a)) : Ensures P R (x >>= f) := by
  intro s b s' hs hrun
  rw [run_bind] at hrun
  rcases hfirst : x.run s with ⟨e | a, u⟩ <;> rw [hfirst] at hrun
  · cases hrun
  · exact hf a u b s' (hx s a u hs hfirst) hrun

/-- Both branches ensure it, so the choice between them does. -/
theorem ite {c : Prop} [Decidable c] {x y : ExceptT ε (StateM σ) α} (hx : Ensures P Q x)
    (hy : Ensures P Q y) : Ensures P Q (if c then x else y) := by
  split
  · exact hx
  · exact hy

/-- A first part that is left out in some cases. -/
theorem optional {S : σ → Prop} {c : Prop} [Decidable c] {x : ExceptT ε (StateM σ) α}
    {y : ExceptT ε (StateM σ) β} (hx : Ensures S (fun _ => S) x) (hy : Ensures S R y) :
    Ensures S R (if c then x >>= fun _ => y else y) :=
  ite (bind hx fun _ => hy) hy

/-- A handler knows nothing about the state in which it starts. -/
theorem tryCatch {x : ExceptT ε (StateM σ) α} {handler : ε → ExceptT ε (StateM σ) α}
    (hx : Ensures P Q x) (hhandler : ∀ e, Ensures (fun _ => True) Q (handler e)) :
    Ensures P Q (tryCatch x handler) := by
  intro s a s' hs hrun
  rw [run_tryCatch] at hrun
  rcases hfirst : x.run s with ⟨e | b, u⟩ <;> rw [hfirst] at hrun
  · exact hhandler e u a s' True.intro hrun
  · cases hrun
    exact hx s _ _ hs hfirst

/-- What one round of a loop keeps, the loop keeps. -/
theorem foldlM {Q : β → σ → Prop} {f : β → α → ExceptT ε (StateM σ) β} {as : List α}
    (hf : ∀ b, ∀ a ∈ as, Ensures (Q b) Q (f b a)) (b : β) : Ensures (Q b) Q (as.foldlM f b) := by
  induction as generalizing b with
  | nil => exact pure fun _ h => h
  | cons a as ih =>
    exact bind (hf b a List.mem_cons_self) fun b' =>
      ih (fun b a ha => hf b a (List.mem_cons_of_mem _ ha)) b'

/-- More may be relied on, and less ensured. -/
theorem mono {P' : σ → Prop} {Q' : α → σ → Prop} {x : ExceptT ε (StateM σ) α} (hx : Ensures P Q x)
    (hP : ∀ s, P' s → P s) (hQ : ∀ a s, Q a s → Q' a s) : Ensures P' Q' x :=
  fun s a s' hs hrun => hQ a s' (hx s a s' (hP s hs) hrun)

/-- What every step keeps, an action that moves by such steps keeps. -/
theorem of_moves {x : ExceptT ε (StateM σ) α} (hx : Moves E x) (h : ∀ s s', E s s' → P s → P s') :
    Ensures P (fun _ => P) x := by
  intro s a s' hs hrun
  have hsteps : ReflTransGen E s s' := by
    have hmoves := hx s
    rwa [hrun] at hmoves
  clear hrun
  induction hsteps with
  | refl => exact hs
  | tail _ hlast ih => exact h _ _ hlast ih

end Ensures

end StatusCache
