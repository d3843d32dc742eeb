import LoopDiff.Failure
import Mathlib.Data.List.Forall2
import Mathlib.Order.CompleteBooleanAlgebra
import Mathlib.Order.CompletePartialOrder
import Mathlib.Logic.Nonempty

/-!
# LoopDiff.Proofs.Yields

Computations that succeed.

A computation runs in a world, such as the arena that a recording extends,
and leaves another one behind.  `Ends c w Q` says that `c`, run in the
world `w`, does not fail, and that its result and the world it leaves
satisfy `Q`.  It is a statement of total correctness: every use of it also
shows that something is there.

`Yields c w Q` adds that the world left behind is a later one, in which
everything that was the case still is.  Most computations are of this kind,
and what is known of a value need not be shown again after each of them.

A computation in `Except Failure` has no world, and its world is the
trivial one.
-/

namespace LoopDiff

/-- Monads whose computations run in worlds of type `W`. -/
class Worlds (m : Type → Type) (W : outParam Type) [Monad m] extends LawfulMonad m where
  Ends {α : Type} : m α → W → (α → W → Prop) → Prop
  ends_pure {α : Type} {x : α} {w : W} {Q : α → W → Prop} : Q x w → Ends (pure x) w Q
  ends_bind {α β : Type} {c : m α} {f : α → m β} {w : W} {P : α → W → Prop}
    {Q : β → W → Prop} : Ends c w P → (∀ x w', P x w' → Ends (f x) w' Q) → Ends (c >>= f) w Q
  /-- A computation has one result. -/
  ends_forall {ι : Type} [Nonempty ι] {α : Type} {c : m α} {w : W} {Q : ι → α → W → Prop} :
    (∀ i, Ends c w (Q i)) → Ends c w fun x w' => ∀ i, Q i x w'

export Worlds (Ends ends_pure)

instance : Worlds (Except Failure) Unit where
  Ends c _ Q := ∃ x, c = .ok x ∧ Q x ()
  ends_pure h := ⟨_, rfl, h⟩
  ends_bind := by
    rintro α β c f w P Q ⟨x, rfl, hx⟩ h
    exact h x () hx
  ends_forall := by
    intro ι _ α c w Q h
    obtain ⟨x, hc, -⟩ := h (Classical.arbitrary ι)
    refine ⟨x, hc, fun i => ?_⟩
    obtain ⟨y, hc', hy⟩ := h i
    cases hc.symm.trans hc'
    exact hy

/-- The world of a computation with a state is the state. -/
instance (priority := low) {σ : Type} : Worlds (ExceptT Failure (StateM σ)) σ where
  Ends c s Q := ∃ x s', c.run.run s = (.ok x, s') ∧ Q x s'
  ends_pure h := ⟨_, _, rfl, h⟩
  ends_bind := by
    rintro α β c f s P Q ⟨x, s', hc, hx⟩ h
    obtain ⟨y, s'', hf, hy⟩ := h x s' hx
    refine ⟨y, s'', ?_, hy⟩
    rw [ExceptT.run_bind, StateT.run_bind, hc]
    exact hf
  ends_forall := by
    intro ι _ α c s Q h
    obtain ⟨x, s', hc, -⟩ := h (Classical.arbitrary ι)
    refine ⟨x, s', hc, fun i => ?_⟩
    obtain ⟨y, s'', hc', hy⟩ := h i
    cases hc.symm.trans hc'
    exact hy

section

variable {m : Type → Type} {W : Type} [Monad m] [Worlds m W] {α β : Type} {w : W}

namespace Worlds.Ends

variable {c : m α} {P : α → W → Prop}

protected theorem bind {f : α → m β} {Q : β → W → Prop} (hc : Ends c w P)
    (hf : ∀ x w', P x w' → Ends (f x) w' Q) : Ends (c >>= f) w Q :=
  ends_bind hc hf

theorem mono {Q : α → W → Prop} (hc : Ends c w P) (h : ∀ x w', P x w' → Q x w') :
    Ends c w Q := by
  rw [← bind_pure c]
  exact hc.bind fun x w' hx => ends_pure (h x w' hx)

end Worlds.Ends

variable [Preorder W]

/-- The computation succeeds and leaves a later world. -/
def Yields (c : m α) (w : W) (Q : α → W → Prop) : Prop :=
  Ends c w fun x w' => w ≤ w' ∧ Q x w'

theorem yields_pure {x : α} {Q : α → W → Prop} (h : Q x w) : Yields (pure x : m α) w Q :=
  ends_pure ⟨le_rfl, h⟩

namespace Yields

variable {c : m α} {P : α → W → Prop}

theorem bind {f : α → m β} {Q : β → W → Prop} (hc : Yields c w P)
    (hf : ∀ x w', w ≤ w' → P x w' → Yields (f x) w' Q) : Yields (c >>= f) w Q :=
  Worlds.Ends.bind hc fun x w' ⟨le, hx⟩ =>
    (hf x w' le hx).mono fun _ _ ⟨le', hy⟩ => ⟨le.trans le', hy⟩

theorem mono {Q : α → W → Prop} (hc : Yields c w P)
    (h : ∀ x w', w ≤ w' → P x w' → Q x w') : Yields c w Q :=
  Worlds.Ends.mono hc fun x w' ⟨le, hx⟩ => ⟨le, h x w' le hx⟩

theorem ends {Q : α → W → Prop} (hc : Yields c w Q) : Ends c w Q :=
  Worlds.Ends.mono hc fun _ _ h => h.2

/-- What holds of the result for each of some reasons holds of it for all of
them. -/
theorem all {ι : Type} [Nonempty ι] {Q : ι → α → W → Prop} (h : ∀ i, Yields c w (Q i)) :
    Yields c w fun x w' => ∀ i, Q i x w' :=
  Worlds.Ends.mono (Worlds.ends_forall h) fun _ _ hx =>
    ⟨(hx (Classical.arbitrary ι)).1, fun i => (hx i).2⟩

/-- What holds of the result for each number below `n` holds of it for all of
them. -/
theorem allBelow {n : Nat} {Q : Nat → α → W → Prop} (pos : 0 < n)
    (h : ∀ it < n, Yields c w (Q it)) : Yields c w fun x w' => ∀ it < n, Q it x w' := by
  have : Nonempty (Fin n) := ⟨⟨0, pos⟩⟩
  exact (all fun it : Fin n => h it it.isLt).mono fun x w' _ hx it hit => hx ⟨it, hit⟩

end Yields

/-- A computation that is known to succeed is no step of its own. -/
theorem bind_of_ok {α β : Type} {c : Except Failure α} {x : α} (h : c = .ok x)
    (f : α → Except Failure β) : c >>= f = f x := by
  subst h
  rfl

theorem yields_ok {c : Except Failure α} {x : α} {Q : α → Unit → Prop} (h : c = .ok x)
    (hx : Q x ()) : Yields c () Q :=
  ⟨x, h, le_rfl, hx⟩

theorem exists_ok_of_yields {c : Except Failure α} {Q : α → Unit → Prop} (h : Yields c () Q) :
    ∃ x, c = .ok x ∧ Q x () := by
  obtain ⟨x, hc, -, hx⟩ := h
  exact ⟨x, hc, hx⟩

/-! ## Steps of a computation that succeeded -/

theorem bind_eq_ok {α β : Type} {c : Except Failure α} {f : α → Except Failure β} {y : β}
    (h : c >>= f = .ok y) : ∃ x, c = .ok x ∧ f x = .ok y := by
  cases c with
  | error e => cases h
  | ok x => exact ⟨x, rfl, h⟩

/-- A fold that succeeded has taken a step at every element. -/
theorem exists_of_foldlM {α β : Type} {f : β → α → Except Failure β} {xs : List α} {b b' : β}
    (h : xs.foldlM f b = .ok b') {x : α} (hx : x ∈ xs) : ∃ c c', f c x = .ok c' := by
  induction xs generalizing b with
  | nil => cases hx
  | cons y ys ih =>
      rw [List.foldlM_cons] at h
      obtain ⟨c, here, rest⟩ := bind_eq_ok h
      rcases List.mem_cons.mp hx with rfl | mem
      · exact ⟨b, c, here⟩
      · exact ih rest mem

theorem eq_of_checkSize {what : Buffer} {expected actual : Nat} {x : Unit}
    (h : (checkSize what expected actual : Except Failure Unit) = .ok x) : expected = actual := by
  rw [checkSize] at h
  split at h
  case isTrue eq => exact eq
  case isFalse => cases h

theorem lt_of_checkExtent {width count : Nat} {x : Unit}
    (h : (checkExtent width count : Except Failure Unit) = .ok x) :
    width * count < 0x8000000000000000 := by
  rw [checkExtent] at h
  split at h
  case isTrue lt => exact lt
  case isFalse => cases h

theorem eq_some_of_present {α : Type} {x? : Option α} {x : α}
    (h : (present x? : Except Failure α) = .ok x) : x? = some x := by
  cases x? with
  | none => cases h
  | some y =>
      cases h
      rfl

/-! ## Loops over lists -/

omit [Preorder W] in
/-- A fold keeps an invariant between the elements done so far and the
accumulated value. -/
theorem ends_foldlM {f : β → α → m β} {b : β} {xs : List α}
    (I : List α → β → W → Prop) (init : I [] b w)
    (step : ∀ done x rest b w', xs = done ++ x :: rest → I done b w' →
      Ends (f b x) w' (I (done ++ [x]))) :
    Ends (xs.foldlM f b) w (I xs) := by
  suffices h : ∀ rest done b w', xs = done ++ rest → I done b w' →
      Ends (rest.foldlM f b) w' (I xs) from h xs [] b w rfl init
  intro rest
  induction rest with
  | nil =>
      intro done b w' hxs hI
      rw [List.append_nil] at hxs
      exact ends_pure (hxs ▸ hI)
  | cons x rest ih =>
      intro done b w' hxs hI
      rw [List.foldlM_cons]
      refine (step done x rest b w' hxs hI).bind fun b' w'' hI' => ?_
      exact ih (done ++ [x]) b' w'' (by simp [hxs]) hI'

omit [Preorder W] in
/-- Mapping a computation over a list gives what it gives for each element, if
it keeps what it asks of the world. -/
theorem ends_mapM_eq {f : α → m β} {xs : List α} {ys : List β} {P : W → Prop}
    (h : List.Forall₂ (fun x y => ∀ w, P w → Ends (f x) w fun z w' => z = y ∧ P w') xs ys)
    (init : P w) : Ends (xs.mapM f) w fun zs w' => zs = ys ∧ P w' := by
  induction h generalizing w with
  | nil => exact ends_pure ⟨rfl, init⟩
  | cons step _ ih =>
      rw [List.mapM_cons]
      refine (step w init).bind ?_
      rintro _ w' ⟨rfl, hw⟩
      refine (ih hw).bind ?_
      rintro _ w'' ⟨rfl, hw⟩
      exact ends_pure ⟨rfl, hw⟩

omit [Preorder W] in
/-- A loop keeps an invariant. -/
theorem ends_forM {f : α → m PUnit} {xs : List α} (I : List α → W → Prop) (init : I [] w)
    (step : ∀ done x rest w', xs = done ++ x :: rest → I done w' →
      Ends (f x) w' fun _ => I (done ++ [x])) :
    Ends (xs.forM f) w fun _ => I xs := by
  suffices h : ∀ rest done w', xs = done ++ rest → I done w' →
      Ends (rest.forM f) w' fun _ => I xs from h xs [] w rfl init
  intro rest
  induction rest with
  | nil =>
      intro done w' hxs hI
      rw [List.append_nil] at hxs
      exact ends_pure (hxs ▸ hI)
  | cons x rest ih =>
      intro done w' hxs hI
      rw [List.forM]
      refine (step done x rest w' hxs hI).bind fun _ w'' hI' => ?_
      exact ih (done ++ [x]) w'' (by simp [hxs]) hI'

/-- A fold of computations that leave later worlds. -/
theorem yields_foldlM {f : β → α → m β} {b : β} {xs : List α}
    (I : List α → β → W → Prop) (init : I [] b w)
    (step : ∀ done x rest b w', xs = done ++ x :: rest → w ≤ w' → I done b w' →
      Yields (f b x) w' (I (done ++ [x]))) :
    Yields (xs.foldlM f b) w (I xs) := by
  refine ends_foldlM (fun done b w' => w ≤ w' ∧ I done b w') ⟨le_rfl, init⟩ ?_
  rintro done x rest b w' hxs ⟨le, hI⟩
  exact Worlds.Ends.mono (step done x rest b w' hxs le hI) fun _ _ h => ⟨le.trans h.1, h.2⟩

/-- Mapping a computation over a list relates the elements one by one, if
what holds of a result keeps holding in later worlds. -/
theorem yields_mapM {f : α → m β} {xs : List α} {P : α → β → W → Prop}
    (later : ∀ x y w₁ w₂, w₁ ≤ w₂ → P x y w₁ → P x y w₂)
    (step : ∀ x ∈ xs, ∀ w', w ≤ w' → Yields (f x) w' (P x)) :
    Yields (xs.mapM f) w fun ys w' => List.Forall₂ (fun x y => P x y w') xs ys := by
  induction xs generalizing w with
  | nil => exact yields_pure .nil
  | cons x xs ih =>
      rw [List.mapM_cons]
      refine (step x (List.mem_cons_self ..) w le_rfl).bind fun y w' le hy => ?_
      have rest := ih fun x' hx' w'' le' =>
        step x' (List.mem_cons_of_mem _ hx') w'' (le.trans le')
      exact rest.bind fun ys w'' le' hys => yields_pure (.cons (later _ _ _ _ le' hy) hys)

/-- A loop of computations that leave later worlds. -/
theorem yields_forM {f : α → m PUnit} {xs : List α}
    (step : ∀ x ∈ xs, ∀ w', w ≤ w' → Yields (f x) w' fun _ _ => True) :
    Yields (xs.forM f) w fun _ _ => True := by
  refine Worlds.Ends.mono (ends_forM (fun _ w' => w ≤ w') le_rfl ?_) fun _ _ le => ⟨le, trivial⟩
  intro done x rest w' split le
  exact Worlds.Ends.mono (step x (by simp [split]) w' le) fun _ _ h => le.trans h.1

end

theorem eq_map_of_forall₂ {α β : Type} {g : α → β} {xs : List α} {ys : List β}
    (h : List.Forall₂ (fun x y => y = g x) xs ys) : ys = xs.map g := by
  induction h with
  | nil => rfl
  | cons eq _ ih => rw [List.map_cons, eq, ih]

theorem forall_right_of_forall₂ {α β : Type} {P : β → Prop} {xs : List α} {ys : List β}
    (h : List.Forall₂ (fun _ y => P y) xs ys) : ∀ y ∈ ys, P y := by
  induction h with
  | nil => simp
  | cons hy _ ih => exact List.forall_mem_cons.mpr ⟨hy, ih⟩

theorem exists_left_of_forall₂ {α β : Type} {P : α → β → Prop} {xs : List α} {ys : List β}
    (h : List.Forall₂ P xs ys) {i : Nat} {y : β} (hy : ys[i]? = some y) :
    ∃ x, xs[i]? = some x ∧ P x y := by
  induction h generalizing i with
  | nil => cases hy
  | cons hxy _ ih =>
      cases i with
      | zero => exact ⟨_, rfl, by cases hy; exact hxy⟩
      | succ i => exact ih hy

theorem exists_right_of_forall₂ {α β : Type} {P : α → β → Prop} {xs : List α} {ys : List β}
    (h : List.Forall₂ P xs ys) {i : Nat} {x : α} (hx : xs[i]? = some x) :
    ∃ y, ys[i]? = some y ∧ P x y := by
  induction h generalizing i with
  | nil => cases hx
  | cons hxy _ ih =>
      cases i with
      | zero => exact ⟨_, rfl, by cases hx; exact hxy⟩
      | succ i => exact ih hx

theorem forall₂_trans {α β γ : Type} {P : α → β → Prop} {Q : β → γ → Prop} {S : α → γ → Prop}
    {xs : List α} {ys : List β} {zs : List γ} (h : List.Forall₂ P xs ys) (h' : List.Forall₂ Q ys zs)
    (trans : ∀ x y z, P x y → Q y z → S x z) : List.Forall₂ S xs zs := by
  induction h generalizing zs with
  | nil =>
      cases h'
      exact .nil
  | cons hxy _ ih =>
      cases h' with
      | cons hyz h' => exact .cons (trans _ _ _ hxy hyz) (ih h')

theorem exists_forall₂ {α β : Type} {P : α → β → Prop} {xs : List α}
    (h : ∀ x ∈ xs, ∃ y, P x y) : ∃ ys, List.Forall₂ P xs ys := by
  induction xs with
  | nil => exact ⟨[], .nil⟩
  | cons x xs ih =>
      obtain ⟨y, hy⟩ := h x (List.mem_cons_self ..)
      obtain ⟨ys, hys⟩ := ih fun x' hx' => h x' (List.mem_cons_of_mem _ hx')
      exact ⟨y :: ys, .cons hy hys⟩

/-- What holds of each result of a mapped computation. -/
theorem yields_mapM_forall {m : Type → Type} {W : Type} [Monad m] [Worlds m W] [Preorder W]
    {α β : Type} {w : W} {f : α → m β} {xs : List α} {P : β → W → Prop}
    (later : ∀ y w₁ w₂, w₁ ≤ w₂ → P y w₁ → P y w₂)
    (step : ∀ x ∈ xs, ∀ w', w ≤ w' → Yields (f x) w' P) :
    Yields (xs.mapM f) w fun ys w' => ys.length = xs.length ∧ ∀ y ∈ ys, P y w' :=
  (yields_mapM (P := fun _ y w' => P y w') (fun _ => later) step).mono fun _ _ _ h =>
    ⟨h.length_eq.symm, forall_right_of_forall₂ h⟩

/-! ## State -/

section

variable {σ α β : Type} {s : σ} {Q : β → σ → Prop}

theorem ends_get_bind {f : σ → ExceptT Failure (StateM σ) β} (h : Ends (f s) s Q) :
    Ends (get >>= f) s Q :=
  Worlds.Ends.bind (P := fun x s' => x = s ∧ s' = s) ⟨s, s, rfl, rfl, rfl⟩ (by
    rintro _ _ ⟨rfl, rfl⟩
    exact h)

theorem ends_lift_bind {c : Except Failure α} {x : α} {f : α → ExceptT Failure (StateM σ) β}
    (hc : c = .ok x) (h : Ends (f x) s Q) :
    Ends ((liftM c : ExceptT Failure (StateM σ) α) >>= f) s Q := by
  subst hc
  exact Worlds.Ends.bind (P := fun y s' => y = x ∧ s' = s) ⟨x, s, rfl, rfl, rfl⟩ (by
    rintro _ _ ⟨rfl, rfl⟩
    exact h)

end

/-! ## Checks -/

section

variable {m : Type → Type} {W : Type} [Monad m] [MonadExceptOf Failure m]
  [Worlds m W] [Preorder W] {α β : Type} {w : W} {Q : β → W → Prop}

theorem yields_present {x? : Option α} {x : α} {Q : α → W → Prop} (h : x? = some x)
    (hx : Q x w) : Yields (present x? : m α) w Q := by
  subst h
  exact yields_pure hx

/-- A value that is there is passed on. -/
theorem yields_present_bind {x? : Option α} {x : α} {f : α → m β} (h : x? = some x)
    (hf : Yields (f x) w Q) : Yields (present x? >>= f) w Q := by
  subst h
  rwa [present, pure_bind]

/-- A check that passes is no step of its own. -/
theorem yields_checkSize_bind {what : Buffer} {expected actual : Nat} {f : Unit → m β}
    (h : expected = actual) (hf : Yields (f ()) w Q) :
    Yields (checkSize what expected actual >>= f) w Q := by
  rwa [checkSize, if_pos h, pure_bind]

theorem yields_checkExtent_bind {width count : Nat} {f : Unit → m β}
    (h : width * count < 0x8000000000000000) (hf : Yields (f ()) w Q) :
    Yields (checkExtent width count >>= f) w Q := by
  rwa [checkExtent, if_pos h, pure_bind]

end

end LoopDiff
