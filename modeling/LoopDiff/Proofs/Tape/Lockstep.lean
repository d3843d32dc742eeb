import LoopDiff.Proofs.Graph.Values
import LoopDiff.Proofs.Tape.Exact
import LoopDiff.Tape.Derivatives

/-!
# LoopDiff.Proofs.Tape.Lockstep

A tape run on recorded values and on numbers at the same time.

`Replays lapse c d a Q` says that the recording `c` does in the arena `a` what
the computation `d` does on numbers: it fails in the same way, or both succeed
and `Q` relates their results.  Every sweep over a tape replays itself, on
any inputs, and so does every selection of derivatives.

The two runs take the same steps except in a reverse sweep.  An adjoint that
is zero as a number need not be known to be zero when it is recorded; then
only one of the runs skips the entry, and the step that the other one takes
adds zero to some adjoints (`Entry.backward_zero`).  The exponent of an
integer power may be one that cannot be lowered; then that step crashes.
This is the `lapse`, and it is the one thing that a recording does on its own.
-/

namespace LoopDiff

variable {F : Type} {α β γ δ : Type} {a a' : Arena F} {lapse : Prop}

/-! ## Computations in lockstep -/

/-- The recording `c` ends like `d`, with results related by `Q`, or fails as
`d` does.  Where there is a lapse it may also crash. -/
def Replays (lapse : Prop) (c : Recording F α) (d : Except Failure β) (a : Arena F)
    (Q : α → β → Arena F → Prop) : Prop :=
  ∃ r a', c.run.run (some a) = (r, some a') ∧ a ≤ a' ∧
    match r with
    | .ok x => ∃ y, d = .ok y ∧ Q x y a'
    | .error e => d = .error e ∨ lapse ∧ e = .crash none

theorem replays_pure {x : α} {y : β} {Q : α → β → Arena F → Prop} (h : Q x y a) :
    Replays lapse (pure x) (pure y) a Q :=
  ⟨_, a, rfl, le_rfl, _, rfl, h⟩

theorem replays_throw (e : Failure) {Q : α → β → Arena F → Prop} :
    Replays lapse (throw e) (throw e) a Q :=
  ⟨_, a, rfl, le_rfl, .inl rfl⟩

theorem replays_of_yields {c : Recording F α} {d : Except Failure β} {y : β}
    {Q : α → β → Arena F → Prop} (hc : Yields c a fun x a' => Q x y a') (hd : d = .ok y) :
    Replays lapse c d a Q := by
  obtain ⟨x, a', run, le, h⟩ := hc
  exact ⟨_, a', run, le, y, hd, h⟩

namespace Replays

variable {c : Recording F α} {d : Except Failure β} {P : α → β → Arena F → Prop}

protected theorem bind {f : α → Recording F γ} {g : β → Except Failure δ}
    {Q : γ → δ → Arena F → Prop} (hc : Replays lapse c d a P)
    (hf : ∀ x y a', a ≤ a' → P x y a' → Replays lapse (f x) (g y) a' Q) :
    Replays lapse (c >>= f) (d >>= g) a Q := by
  obtain ⟨r, a', run, le, h⟩ := hc
  have runs := Recording.run_bind_some (f := f) run
  cases r with
  | ok x =>
      obtain ⟨y, rfl, h⟩ := h
      obtain ⟨r, a'', run', le', h'⟩ := hf x y a' le h
      exact ⟨r, a'', runs.trans run', le.trans le', h'⟩
  | error e =>
      refine ⟨.error e, a', runs, le, h.imp_left fun fails => ?_⟩
      rw [fails]
      rfl

theorem mono {Q : α → β → Arena F → Prop} (hc : Replays lapse c d a P)
    (h : ∀ x y a', a ≤ a' → P x y a' → Q x y a') : Replays lapse c d a Q := by
  obtain ⟨r, a', run, le, hr⟩ := hc
  refine ⟨r, a', run, le, ?_⟩
  cases r with
  | ok x =>
      obtain ⟨y, hd, hr⟩ := hr
      exact ⟨y, hd, h x y a' le hr⟩
  | error e => exact hr

/-- A computation that crashes is one that a recording may crash instead of,
where there is a lapse. -/
theorem of_crash {Q : α → β → Arena F → Prop} {d' : Except Failure β} (hc : Replays lapse c d a Q)
    (crash : d = .error (.crash none)) (lapses : lapse) : Replays lapse c d' a Q := by
  obtain ⟨r, a', run, le, hr⟩ := hc
  refine ⟨r, a', run, le, ?_⟩
  cases r with
  | ok x =>
      obtain ⟨y, hd, -⟩ := hr
      cases hd.symm.trans crash
  | error e =>
      refine .inr ⟨lapses, hr.elim (fun fails => ?_) And.right⟩
      cases fails.symm.trans crash
      rfl

end Replays

theorem replays_present {x? : Option α} {y? : Option β} {Q : α → β → Arena F → Prop}
    (same : x?.isSome = y?.isSome) (h : ∀ x y, x? = some x → y? = some y → Q x y a) :
    Replays lapse (present x?) (present y?) a Q := by
  match x?, y?, same with
  | none, none, _ => exact replays_throw _
  | some x, some y, _ => exact replays_pure (h x y rfl rfl)

theorem replays_checkSize (what : Buffer) (expected actual : Nat) :
    Replays lapse (checkSize what expected actual : Recording F Unit)
      (checkSize what expected actual : Except Failure Unit) a fun _ _ _ =>
        expected = actual := by
  rw [checkSize, checkSize]
  split
  case isTrue eq => exact replays_pure eq
  case isFalse => exact replays_throw _

/-- Folds whose steps run in lockstep, in every arena from `a` on. -/
theorem replays_foldlM {σ τ : Type} {f : σ → γ → Recording F σ} {g : τ → δ → Except Failure τ}
    {Q : σ → τ → Arena F → Prop} {xs : List γ} {ys : List δ} {s : σ} {t : τ}
    (step : List.Forall₂ (fun x y => ∀ s t a', a ≤ a' → Q s t a' →
      Replays lapse (f s x) (g t y) a' Q) xs ys) (le : a ≤ a') (h : Q s t a') :
    Replays lapse (xs.foldlM f s) (ys.foldlM g t) a' Q := by
  induction step generalizing s t a' with
  | nil => exact replays_pure h
  | cons here _ ih =>
      rw [List.foldlM_cons, List.foldlM_cons]
      exact (here s t a' le h).bind fun s' t' a'' le' h' => ih (le.trans le') h'

/-- Folds over the same list. -/
theorem replays_foldlM_same {σ τ : Type} {f : σ → γ → Recording F σ} {g : τ → γ → Except Failure τ}
    {Q : σ → τ → Arena F → Prop} {xs : List γ} {s : σ} {t : τ}
    (step : ∀ x ∈ xs, ∀ s t a', a ≤ a' → Q s t a' → Replays lapse (f s x) (g t x) a' Q)
    (h : Q s t a) : Replays lapse (xs.foldlM f s) (xs.foldlM g t) a Q :=
  replays_foldlM (List.forall₂_same.mpr step) le_rfl h

theorem replays_mapM {f : α → Recording F γ} {g : α → Except Failure δ}
    {Q : γ → δ → Arena F → Prop} {xs : List α}
    (later : ∀ x y a a', a ≤ a' → Q x y a → Q x y a')
    (step : ∀ x ∈ xs, ∀ a', a ≤ a' → Replays lapse (f x) (g x) a' Q) :
    Replays lapse (xs.mapM f) (xs.mapM g) a fun us vs a' =>
      List.Forall₂ (fun u v => Q u v a') us vs := by
  induction xs generalizing a with
  | nil => exact replays_pure .nil
  | cons x xs ih =>
      rw [List.mapM_cons, List.mapM_cons]
      refine (step x (List.mem_cons_self ..) a le_rfl).bind fun u v a' le h => ?_
      refine (ih fun x' hx' a'' le' => step x' (List.mem_cons_of_mem _ hx') a''
        (le.trans le')).bind fun us vs a'' le' hs => ?_
      exact replays_pure (.cons (later _ _ _ _ le' h) hs)

/-! ## Operations -/

variable {T R : Type} {k : Nat} [Scalar F] [Constants F T] [Arith (Recording F) T] [Elementary R]
  [Embeds F R] [Constants F R] [Arith (Except Failure) R] [ExactNumber F R]
  (I : Interpretation (Recording F) F T R)

namespace Interpretation

variable {v w u : T} {x y z : R}

/-- A recorded number and the number itself. -/
theorem means_ofBase (a : Arena F) (c : F) :
    I.means a (Constants.ofBase c) (Constants.ofBase c : R) :=
  ExactNumber.ofBase_eq (R := R) c ▸ I.ofBase a c

theorem replays_binary (op : Binary) (hv : I.means a v x) (hw : I.means a w y) :
    Replays lapse (Arith.binary op v w) (Arith.binary op x y) a fun z r a' => I.means a' z r :=
  replays_of_yields (I.binary op hv hw) (ExactNumber.binary_eq (F := F) op x y)

theorem replays_unary (op : Unary) (hv : I.means a v x) :
    Replays lapse (Arith.unary op v) (Arith.unary op x) a fun z r a' => I.means a' z r :=
  replays_of_yields (I.unary op hv) (ExactNumber.unary_eq (F := F) op x)

/-- The derivative rules for binary operations. -/
theorem replays_derivative_binary (op : Binary) (hv : I.means a v x) (hw : I.means a w y)
    (hu : I.means a u z) :
    Replays lapse (Derivative.binary op v w u) (Derivative.binary op x y z) a fun d e a' =>
      I.means a' d.1 e.1 ∧ I.means a' d.2 e.2 := by
  have one (a : Arena F) : I.means a Constants.one (Constants.one : R) := I.means_ofBase a _
  cases op with
  | add => exact replays_pure ⟨one a, one a⟩
  | sub =>
      refine (I.replays_unary .neg (one a)).bind fun d e a₁ _ hd => ?_
      exact replays_pure ⟨one a₁, hd⟩
  | mul => exact replays_pure ⟨hw, hv⟩
  | div =>
      refine (I.replays_unary .recip hw).bind fun inv _ a₁ le₁ hinv => ?_
      refine (I.replays_binary .mul (I.later le₁ hv) hinv).bind fun b _ a₂ le₂ hb => ?_
      refine (I.replays_binary .mul hb (I.later le₂ hinv)).bind fun b _ a₃ le₃ hb => ?_
      refine (I.replays_unary .neg hb).bind fun b _ a₄ le₄ hb => ?_
      exact replays_pure ⟨I.later (le₂.trans (le₃.trans le₄)) hinv, hb⟩
  | pow =>
      refine (I.replays_binary .sub hw (one a)).bind fun e _ a₁ le₁ he => ?_
      refine (I.replays_binary .pow (I.later le₁ hv) he).bind fun p _ a₂ le₂ hp => ?_
      have le := le₁.trans le₂
      refine (I.replays_binary .mul (I.later le hw) hp).bind fun b _ a₃ le₃ hb => ?_
      have le := le.trans le₃
      refine (I.replays_unary .ln (I.later le hv)).bind fun l _ a₄ le₄ hl => ?_
      refine (I.replays_binary .mul (I.later (le.trans le₄) hu) hl).bind fun e _ a₅ le₅ he => ?_
      exact replays_pure ⟨I.later (le₄.trans le₅) hb, he⟩

theorem replays_derivative_unary (op : Unary) (hv : I.means a v x) (hu : I.means a u z) :
    Replays lapse (Derivative.unary op v u) (Derivative.unary op x z) a fun d e a' =>
      I.means a' d e := by
  have one (a : Arena F) : I.means a Constants.one (Constants.one : R) := I.means_ofBase a _
  have square : Replays lapse (Arith.mul u u) (Arith.mul z z) a fun d e a' => I.means a' d e :=
    I.replays_binary .mul hu hu
  cases op with
  | neg => exact I.replays_unary .neg (one a)
  | recip => exact square.bind fun d e a₁ _ hd => I.replays_unary .neg hd
  | sqrt =>
      refine (I.replays_binary .add (one a) (one a)).bind fun d e a₁ le₁ hd => ?_
      exact (I.replays_binary .mul hd (I.later le₁ hu)).bind fun d e a₂ _ hd =>
        I.replays_unary .recip hd
  | exp => exact replays_pure hu
  | ln => exact I.replays_unary .recip hv
  | sin => exact I.replays_unary .cos hv
  | cos => exact (I.replays_unary .sin hv).bind fun d e a₁ _ hd => I.replays_unary .neg hd
  | tan => exact square.bind fun d e a₁ _ hd => I.replays_binary .add (one a₁) hd
  | sinh => exact I.replays_unary .cosh hv
  | cosh => exact I.replays_unary .sinh hv
  | tanh => exact square.bind fun d e a₁ _ hd => I.replays_binary .sub (one a₁) hd

omit [Elementary R] [Constants F R] [Arith (Except Failure) R] [ExactNumber F R] [Scalar F] in
/-- Both runs find the next lower exponent, or there is none. -/
theorem replays_pred (a : Arena F) (n : Int32) :
    Replays lapse (Exponent.pred n) (Exponent.pred n) a fun l l' _ => l = l' := by
  rw [Exponent.pred, Exponent.pred]
  split
  case isTrue => exact replays_throw _
  case isFalse => exact replays_pure rfl

/-- Powers are recorded in lockstep, with any exponent. -/
def ReplaysPowi : Prop :=
  ∀ {lapse : Prop} {a : Arena F} {v : T} {x : R} (n : Int32), I.means a v x →
    Replays lapse (Arith.powi v n) (Arith.powi x n) a fun z r a' => I.means a' z r

variable {I} in
theorem ReplaysPowi.derivative (powers : I.ReplaysPowi) (n : Int32) (hv : I.means a v x) :
    Replays lapse (Derivative.powi v n) (Derivative.powi x n) a fun d e a' => I.means a' d e := by
  refine (replays_pred a n).bind fun l _ a₁ le₁ eq => ?_
  cases eq
  exact (powers l (I.later le₁ hv)).bind fun _ _ a₂ _ hp =>
    I.replays_binary .mul (I.means_ofBase a₂ _) hp

/-- On dual numbers both runs take the same steps. -/
theorem ReplaysPowi.dual [PowerRule R] (powers : I.ReplaysPowi) : I.dual.ReplaysPowi := by
  intro lapse a v x n ⟨hr, he⟩
  show Replays lapse (Dual.powi v n) (Dual.powi x n) a _
  by_cases zero : n = 0
  · rw [Dual.powi, Dual.powi, if_pos zero, if_pos zero]
    exact replays_pure ⟨I.means_ofBase a _, I.means_ofBase a _⟩
  · rw [Dual.powi, Dual.powi, if_neg zero, if_neg zero]
    refine (powers n hr).bind fun p _ a₁ le₁ hp => ?_
    refine (powers.derivative n (I.later le₁ hr)).bind fun d _ a₂ le₂ hd => ?_
    refine (I.replays_binary .mul (I.later (le₁.trans le₂) he) hd).bind fun e _ a₃ le₃ he => ?_
    exact replays_pure ⟨I.later (le₂.trans le₃) hp, he⟩

/-! ## Arrays -/

/-- Recorded values that stand for numbers, one by one. -/
def meansEach (a : Arena F) (vs : Array T) (xs : Array R) : Prop :=
  vs.size = xs.size ∧ ∀ (i : Nat) (v : T) (x : R), vs[i]? = some v → xs[i]? = some x →
    I.means a v x

variable {vs : Array T} {xs : Array R}

omit [Constants F R] [Arith (Except Failure) R] [ExactNumber F R]

theorem meansEach.later (h : I.meansEach a vs xs) (le : a ≤ a') : I.meansEach a' vs xs :=
  ⟨h.1, fun i v x hv hx => I.later le (h.2 i v x hv hx)⟩

theorem meansEach.empty : I.meansEach a #[] #[] :=
  ⟨rfl, fun i v x hv => by simp at hv⟩

theorem meansEach.of_forall₂ {vs : List T} {xs : List R}
    (h : List.Forall₂ (fun v x => I.means a v x) vs xs) :
    I.meansEach a vs.toArray xs.toArray := by
  refine ⟨by simpa using h.length_eq, fun i v x hv hx => ?_⟩
  rw [List.getElem?_toArray] at hv hx
  obtain ⟨y, hy, means⟩ := exists_right_of_forall₂ h hv
  cases hy.symm.trans hx
  exact means

theorem meansEach.forall₂ (h : I.meansEach a vs xs) :
    List.Forall₂ (fun v x => I.means a v x) vs.toList xs.toList := by
  refine List.forall₂_iff_get.mpr ⟨by simpa using h.1, fun i hi hi' => ?_⟩
  refine h.2 i _ _ ?_ ?_
  · rw [← Array.getElem?_toList]
    exact List.getElem?_eq_getElem hi
  · rw [← Array.getElem?_toList]
    exact List.getElem?_eq_getElem hi'

theorem meansEach.push (h : I.meansEach a vs xs) (hv : I.means a v x) :
    I.meansEach a (vs.push v) (xs.push x) := by
  refine ⟨by simp [h.1], fun i u y hu hy => ?_⟩
  rw [Array.getElem?_push] at hu hy
  by_cases last : i = vs.size
  · rw [if_pos last] at hu
    rw [if_pos (last.trans h.1)] at hy
    cases hu
    cases hy
    exact hv
  · rw [if_neg last] at hu
    rw [if_neg fun eq => last (eq.trans h.1.symm)] at hy
    exact h.2 i u y hu hy

theorem meansEach.set (h : I.meansEach a vs xs) (i : Nat) (hv : I.means a v x) :
    I.meansEach a (vs.setIfInBounds i v) (xs.setIfInBounds i x) := by
  refine ⟨by simp [h.1], fun j u y hu hy => ?_⟩
  rw [Array.getElem?_setIfInBounds] at hu hy
  by_cases eq : i = j
  · rw [if_pos eq] at hu hy
    by_cases lt : i < vs.size
    · rw [if_pos lt] at hu
      rw [if_pos (h.1 ▸ lt)] at hy
      cases hu
      cases hy
      exact hv
    · rw [if_neg lt] at hu
      cases hu
  · rw [if_neg eq] at hu hy
    exact h.2 j u y hu hy

theorem meansEach.replicate (n : Nat) (hv : I.means a v x) :
    I.meansEach a (Array.replicate n v) (Array.replicate n x) := by
  refine ⟨by simp, fun i u y hu hy => ?_⟩
  rw [Array.getElem?_replicate] at hu hy
  split at hu
  case isTrue lt =>
      rw [if_pos lt] at hy
      cases hu
      cases hy
      exact hv
  case isFalse => cases hu

theorem meansEach.isSome_eq (h : I.meansEach a vs xs) (i : Nat) :
    (vs[i]?).isSome = (xs[i]?).isSome := by
  by_cases lt : i < vs.size
  · rw [Array.getElem?_eq_getElem lt, Array.getElem?_eq_getElem (h.1 ▸ lt)]
    rfl
  · rw [Array.getElem?_eq_none (by omega), Array.getElem?_eq_none (by have := h.1; omega)]
    rfl

theorem meansEach.fetch (h : I.meansEach a vs xs) (i : Nat) :
    Replays lapse (LoopDiff.fetch vs i) (LoopDiff.fetch xs i) a fun v x a' => I.means a' v x :=
  replays_present (h.isSome_eq I i) (h.2 i)

end Interpretation

/-! ## Entries -/

namespace Entry

variable {inputs values adjoints : Array T} {xs ys βs : Array R}

theorem replays_fetchSecond (hv : I.meansEach a values ys) (second : Option Nat) :
    Replays lapse (fetchSecond values second) (fetchSecond ys second) a fun v x a' =>
      I.means a' v x := by
  cases second with
  | some i => exact hv.fetch I i
  | none => exact replays_pure (I.means_ofBase a _)

theorem replays_forward (powers : I.ReplaysPowi) {e : Entry F} (hx : I.meansEach a inputs xs)
    (hv : I.meansEach a values ys) :
    Replays lapse (e.forward inputs values) (e.forward xs ys) a fun v x a' => I.means a' v x := by
  cases e with
  | input =>
      rw [forward, forward, hv.1]
      exact replays_present (hx.isSome_eq I _) (hx.2 _)
  | const c => exact replays_pure (I.means_ofBase a c)
  | powi arg n =>
      exact (hv.fetch I arg).bind fun _ _ _ _ h => powers n h
  | unary op arg second =>
      refine (hv.fetch I arg).bind fun v x a₁ le₁ h => ?_
      refine (replays_fetchSecond I (hv.later I le₁) second).bind fun _ _ a₂ le₂ _ => ?_
      exact I.replays_unary op (I.later le₂ h)
  | binary op left right =>
      refine (hv.fetch I left).bind fun v x a₁ le₁ h => ?_
      refine (replays_fetchSecond I (hv.later I le₁) right).bind fun w y a₂ le₂ h' => ?_
      exact I.replays_binary op (I.later le₂ h) h'

theorem replays_propagate (i : Nat) {factor adjoint : T} {d s : R}
    (hβ : I.meansEach a adjoints βs) (hd : I.means a factor d) (hs : I.means a adjoint s) :
    Replays lapse (propagate adjoints i factor adjoint) (propagate βs i d s) a fun β β' a' =>
      I.meansEach a' β β' ∧ β'.size = βs.size := by
  refine (hβ.fetch I i).bind fun old x a₁ le₁ hold => ?_
  refine (I.replays_binary .mul (I.later le₁ hd) (I.later le₁ hs)).bind fun p _ a₂ le₂ hp => ?_
  refine (I.replays_binary .add (I.later le₂ hold) hp).bind fun n _ a₃ le₃ hn => ?_
  exact replays_pure ⟨(hβ.later I (le₁.trans (le₂.trans le₃))).set I i hn, by simp⟩

theorem replays_backward (powers : I.ReplaysPowi) {e : Entry F} (i : Nat) {adjoint : T} {s : R}
    (hβ : I.meansEach a adjoints βs) (hv : I.meansEach a values ys) (hs : I.means a adjoint s) :
    Replays lapse (e.backward values adjoints i adjoint) (e.backward ys βs i s) a fun β β' a' =>
      I.meansEach a' β β' ∧ β'.size = βs.size := by
  cases e with
  | input | const c => exact replays_pure ⟨hβ, rfl⟩
  | powi arg n =>
      refine (hv.fetch I arg).bind fun x _ a₁ le₁ hx => ?_
      refine (powers.derivative n hx).bind fun d _ a₂ le₂ hd => ?_
      have le := le₁.trans le₂
      exact replays_propagate I arg (hβ.later I le) hd (I.later le hs)
  | unary op arg second =>
      refine (hv.fetch I arg).bind fun x _ a₁ le₁ hx => ?_
      refine (replays_fetchSecond I (hv.later I le₁) second).bind fun _ _ a₂ le₂ _ => ?_
      refine ((hv.later I (le₁.trans le₂)).fetch I i).bind fun r _ a₃ le₃ hr => ?_
      have hx := I.later (le₂.trans le₃) hx
      refine (I.replays_derivative_unary op hx hr).bind fun d _ a₄ le₄ hd => ?_
      have le := le₁.trans (le₂.trans (le₃.trans le₄))
      exact replays_propagate I arg (hβ.later I le) hd (I.later le hs)
  | binary op left right =>
      refine (hv.fetch I left).bind fun x _ a₁ le₁ hx => ?_
      refine (replays_fetchSecond I (hv.later I le₁) right).bind fun y _ a₂ le₂ hy => ?_
      refine ((hv.later I (le₁.trans le₂)).fetch I i).bind fun r _ a₃ le₃ hr => ?_
      have hx := I.later (le₂.trans le₃) hx
      have hy := I.later le₃ hy
      refine (I.replays_derivative_binary op hx hy hr).bind fun d d' a₄ le₄ hd => ?_
      have le := le₁.trans (le₂.trans (le₃.trans le₄))
      refine (replays_propagate I left (hβ.later I le) hd.1 (I.later le hs)).bind
        fun β β' a₅ le₅ hβ' => ?_
      cases right with
      | none => exact replays_throw _
      | some right =>
          refine (replays_propagate I right hβ'.1 (I.later le₅ hd.2)
            (I.later (le.trans le₅) hs)).mono fun _ _ _ _ h => ?_
          exact ⟨h.1, h.2.trans hβ'.2⟩

omit [Constants F T] [Arith (Recording F) T] in
/-- The derivative rules do not fail on numbers. -/
theorem exists_derivative_binary (op : Binary) (x y z : R) :
    ∃ d, (Derivative.binary op x y z : Except Failure (R × R)) = .ok d := by
  cases op <;> simp only [Derivative.binary, Arith.neg, Arith.recip, Arith.mul, Arith.pow,
    Arith.sub, ExactNumber.unary_eq (F := F), ExactNumber.binary_eq (F := F)] <;> exact ⟨_, rfl⟩

omit [Constants F T] [Arith (Recording F) T] in
theorem exists_derivative_unary (op : Unary) (x z : R) :
    ∃ d, (Derivative.unary op x z : Except Failure R) = .ok d := by
  cases op <;> simp only [Derivative.unary, Arith.neg, Arith.recip, Arith.mul, Arith.add, Arith.sub,
    ExactNumber.unary_eq (F := F), ExactNumber.binary_eq (F := F)] <;> exact ⟨_, rfl⟩

omit [Elementary R] [Arith (Except Failure) R] in
theorem fetch_eq_ok {i : Nat} (lt : i < ys.size) : (fetch ys i : Except Failure R) = .ok ys[i] := by
  rw [fetch, Array.getElem?_eq_getElem lt]
  rfl

include F in
omit [Constants F T] [Arith (Recording F) T] in
theorem propagate_zero {i : Nat} (lt : i < βs.size) (d : R) :
    (propagate βs i d 0 : Except Failure (Array R)) = .ok βs := by
  rw [propagate, bind_of_ok (fetch_eq_ok lt), Arith.mul, Arith.add,
    bind_of_ok (ExactNumber.binary_eq (F := F) .mul d 0),
    bind_of_ok (ExactNumber.binary_eq (F := F) .add _ _)]
  show Except.ok (βs.setIfInBounds i (βs[i] + d * 0)) = _
  rw [mul_zero, add_zero, Array.setIfInBounds, dif_pos lt, Array.set_getElem_self]

omit [Constants F T] [Arith (Recording F) T] in
/-- The entry is an integer power whose exponent cannot be lowered `k` times. -/
def IsLow (k : Nat) (e : Entry F) : Prop := ∃ arg n, e = .powi arg n ∧ ¬Exponent.Lowers k n

omit [Constants F T] [Arith (Recording F) T] in
/-- Spending an adjoint that is zero changes nothing, or it crashes at an
exponent that is too low. -/
theorem backward_zero (exact : ExactPowers R k) {e : Entry F} {i : Nat} (size : ys.size = βs.size)
    (lt : i < ys.size) (reads : ∀ a ∈ e.reads, a < ys.size) (complete : e.complete) :
    (e.backward ys βs i 0 : Except Failure (Array R)) = .ok βs ∨
      (e.backward ys βs i 0 : Except Failure (Array R)) = .error (.crash none) ∧
        e.IsLow (k + 1) := by
  cases e with
  | input | const c => exact .inl rfl
  | powi arg n =>
      have ha := reads arg (by simp [Entry.reads])
      rw [backward, bind_of_ok (fetch_eq_ok ha)]
      by_cases lowers : Exponent.Lowers (k + 1) n
      · rw [bind_of_ok (exact.derivative_eq (F := F) ys[arg] lowers)]
        exact .inl (propagate_zero (F := F) (size ▸ ha) _)
      · rw [exact.derivative_crash (F := F) ys[arg] lowers]
        exact .inr ⟨rfl, arg, n, rfl, lowers⟩
  | unary op arg second =>
      have ha := reads arg (by simp [Entry.reads])
      obtain ⟨d, hd⟩ := exists_derivative_unary (F := F) op ys[arg] ys[i]
      obtain ⟨y, hy⟩ : ∃ y, (fetchSecond ys second : Except Failure R) = .ok y := by
        cases second with
        | none => exact ⟨_, rfl⟩
        | some k => exact ⟨_, fetch_eq_ok (reads k (by simp [Entry.reads]))⟩
      rw [backward, bind_of_ok (fetch_eq_ok ha), bind_of_ok hy, bind_of_ok (fetch_eq_ok lt),
        bind_of_ok hd]
      exact .inl (propagate_zero (F := F) (size ▸ ha) _)
  | binary op left right =>
      cases right with
      | none => cases complete
      | some right =>
          have ha := reads left (by simp [Entry.reads])
          have hb := reads right (by simp [Entry.reads])
          obtain ⟨⟨dx, dy⟩, hd⟩ := exists_derivative_binary (F := F) op ys[left] ys[right] ys[i]
          rw [backward, bind_of_ok (fetch_eq_ok ha), fetchSecond, bind_of_ok (fetch_eq_ok hb),
            bind_of_ok (fetch_eq_ok lt), bind_of_ok hd]
          exact .inl ((bind_of_ok (propagate_zero (F := F) (size ▸ ha) dx) _).trans
            (propagate_zero (F := F) (size ▸ hb) dy))

/-- One step of a reverse sweep. -/
theorem replays_reverseStep (powers : I.ReplaysPowi) (exact : ExactPowers R k) {e : Entry F}
    {i : Nat} (hβ : I.meansEach a adjoints βs) (hv : I.meansEach a values ys)
    (size : ys.size = βs.size) (lt : i < ys.size) (reads : ∀ a ∈ e.reads, a < ys.size)
    (complete : e.complete) (low : e.IsLow (k + 1) → lapse) :
    Replays lapse (e.reverseStep values adjoints i) (e.reverseStep ys βs i) a fun β β' a' =>
      I.meansEach a' β β' ∧ β'.size = βs.size := by
  rw [reverseStep, reverseStep]
  cases e.isOperation with
  | false => exact replays_pure ⟨hβ, rfl⟩
  | true =>
      have inside : i < βs.size := size ▸ lt
      have inside' : i < adjoints.size := hβ.1 ▸ inside
      have hs := hβ.2 i _ _ (Array.getElem?_eq_getElem inside') (Array.getElem?_eq_getElem inside)
      have spend : Replays lapse
          (e.backward values (adjoints.setIfInBounds i Constants.zero) i adjoints[i])
          (e.backward ys (βs.setIfInBounds i Constants.zero) i βs[i]) a fun β β' a' =>
            I.meansEach a' β β' ∧ β'.size = βs.size := by
        have cleared := hβ.set I i (I.means_ofBase a (Scalar.zero : F))
        exact (replays_backward I powers i cleared hv hs).mono fun _ _ _ _ h => by simpa using h
      simp only [fetch_eq_ok inside, Bool.not_true, Bool.false_eq_true, if_false]
      rw [show (fetch adjoints i : Recording F T) = pure adjoints[i] by
        rw [fetch, Array.getElem?_eq_getElem inside', present], pure_bind]
      show Replays lapse _ (if Constants.isZero βs[i] then pure βs else
        e.backward ys (βs.setIfInBounds i Constants.zero) i βs[i]) a _
      by_cases zero : Constants.isZero adjoints[i] = true
      · have zero' : Constants.isZero βs[i] = true :=
          (ExactNumber.isZero_iff (F := F) _).mpr (I.isZero hs zero)
        rw [if_pos zero, if_pos zero']
        exact replays_pure ⟨hβ, rfl⟩
      · rw [if_neg zero]
        by_cases zero' : Constants.isZero βs[i] = true
        · -- only the run on numbers skips the entry
          rw [if_pos zero']
          have eq := (ExactNumber.isZero_iff (F := F) _).mp zero'
          have same : βs.setIfInBounds i Constants.zero = βs := by
            rw [ExactNumber.zero_eq (F := F), ← eq, Array.setIfInBounds, dif_pos inside,
              Array.set_getElem_self]
          rw [same, eq] at spend
          rcases backward_zero (F := F) exact size lt reads complete with kept | ⟨crash, isLow⟩
          · rwa [kept] at spend
          · exact spend.of_crash crash (low isLow)
        · rw [if_neg zero']
          exact spend

end Entry

/-! ## Sweeps -/

namespace Tape

variable {t : Tape F} {vs ws : List T} {xs ωs : List R} {values adjoints : Array T}
  {ys βs : Array R}

theorem replays_forwardSweep (powers : I.ReplaysPowi)
    (hx : List.Forall₂ (fun v x => I.means a v x) vs xs) :
    Replays lapse (t.forwardSweep vs) (t.forwardSweep xs) a fun values ys a' =>
      I.meansEach a' values ys := by
  rw [forwardSweep, forwardSweep, checkInputs, checkInputs, hx.length_eq]
  refine (replays_checkSize ..).bind fun _ _ a₁ le₁ _ => ?_
  have inputs := (Interpretation.meansEach.of_forall₂ I hx).later I le₁
  refine replays_foldlM_same (Q := fun values ys a' => I.meansEach a' values ys)
    (fun e _ values ys a₂ le₂ hv => ?_) (Interpretation.meansEach.empty I)
  exact (Entry.replays_forward I powers (inputs.later I le₂) hv).bind fun _ _ _ le₃ h =>
    replays_pure ((hv.later I le₃).push I h)

omit [Constants F R] [Arith (Except Failure) R] [ExactNumber F R] in
theorem replays_outputsOf (hv : I.meansEach a values ys) :
    Replays lapse (t.outputsOf values) (t.outputsOf ys) a fun us zs a' =>
      List.Forall₂ (fun u z => I.means a' u z) us zs :=
  replays_mapM (Q := fun u z a' => I.means a' u z) (fun _ _ _ _ le h => I.later le h)
    fun o _ _ le => (hv.later I le).fetch I o

theorem replays_eval (powers : I.ReplaysPowi)
    (hx : List.Forall₂ (fun v x => I.means a v x) vs xs) :
    Replays lapse (t.eval vs) (t.eval xs) a fun us zs a' =>
      List.Forall₂ (fun u z => I.means a' u z) us zs :=
  (replays_forwardSweep I powers hx).bind fun _ _ _ _ hv => replays_outputsOf I hv

theorem replays_seedAdjoints (hω : List.Forall₂ (fun v x => I.means a v x) ws ωs) :
    Replays lapse (t.seedAdjoints ws) (t.seedAdjoints ωs) a fun β β' a' =>
      I.meansEach a' β β' ∧ β'.size = t.size := by
  refine replays_foldlM (Q := fun β β' a' => I.meansEach a' β β' ∧ β'.size = t.size) ?_ le_rfl
    ⟨.replicate I t.size (I.means_ofBase a _), by simp⟩
  have pairs : List.Forall₂ (fun p q => p.1 = q.1 ∧ I.means a p.2 q.2) (t.outputs.zip ws)
      (t.outputs.zip ωs) := by
    generalize t.outputs = os
    induction hω generalizing os with
    | nil => simp
    | cons h _ ih =>
        cases os with
        | nil => simp
        | cons o os => exact .cons ⟨rfl, h⟩ (ih os)
  refine pairs.imp fun ⟨o, w⟩ ⟨o', ω⟩ ⟨eq, hw⟩ β β' a' le ⟨hβ, size⟩ => ?_
  cases (show o = o' from eq)
  refine (hβ.fetch I o).bind fun old x a₁ le₁ hold => ?_
  refine (I.replays_binary .add hold (I.later (le.trans le₁) hw)).bind fun n y a₂ le₂ hn => ?_
  exact replays_pure ⟨(hβ.later I (le₁.trans le₂)).set I o hn, by simpa using size⟩

/-- A recording that spends an adjoint that is zero may crash. -/
theorem WellFormed.replays_reverseSweep (wf : t.WellFormed) (powers : I.ReplaysPowi)
    (exact : ExactPowers R k) (hv : I.meansEach a values ys)
    (hω : List.Forall₂ (fun v x => I.means a v x) ws ωs) :
    Replays (¬t.Exponents (Exponent.Lowers (k + 1))) (t.reverseSweep values ws)
      (t.reverseSweep ys ωs) a fun β β' a' => I.meansEach a' β β' := by
  rw [reverseSweep, reverseSweep, checkOutputs, checkOutputs, hω.length_eq, hv.1]
  refine (replays_checkSize ..).bind fun _ _ a₁ le₁ _ => ?_
  refine (replays_checkSize ..).bind fun _ _ a₂ le₂ size => ?_
  have le := le₁.trans le₂
  refine (replays_seedAdjoints I (hω.imp fun _ _ h => I.later le h)).bind
    fun β β' a₃ le₃ hβ => ?_
  refine (replays_foldlM_same (Q := fun β β' a' => I.meansEach a' β β' ∧ β'.size = t.size)
    (fun ⟨e, i⟩ he β β' a₄ le₄ hβ => ?_) hβ).mono fun _ _ _ _ h => h.1
  have hi : t.entries[i]? = some e := by
    have mem := List.mem_zipIdx_iff_getElem?.mp (List.mem_reverse.mp he)
    rwa [Array.getElem?_toList] at mem
  have lt : i < t.size := (Array.getElem?_eq_some_iff.mp hi).1
  refine (Entry.replays_reverseStep I powers exact hβ.1 (hv.later I (le.trans (le₃.trans le₄)))
    (size.symm.trans hβ.2.symm) (size ▸ lt) (fun b hb => size ▸ (wf.reads_lt hi b hb).trans lt)
    (wf.complete hi) ?_).mono fun _ _ _ _ h => ⟨h.1, h.2.trans hβ.2⟩
  rintro ⟨arg, n, rfl, low⟩ exponents
  exact low (exponents i arg n hi)

theorem WellFormed.replays_gradient (wf : t.WellFormed) (powers : I.ReplaysPowi)
    (exact : ExactPowers R k) (hx : List.Forall₂ (fun v x => I.means a v x) vs xs)
    (hω : List.Forall₂ (fun v x => I.means a v x) ws ωs) :
    Replays (¬t.Exponents (Exponent.Lowers (k + 1))) (t.gradient vs ws) (t.gradient xs ωs) a
      fun us zs a' => List.Forall₂ (fun u z => I.means a' u z) us zs := by
  refine (replays_forwardSweep I powers hx).bind fun values ys a₁ le₁ hv => ?_
  refine (wf.replays_reverseSweep I powers exact hv (hω.imp fun _ _ h => I.later le₁ h)).bind
    fun β β' a₂ le₂ hβ => replays_pure ?_
  exact List.forall₂_take _ (hβ.forall₂ I)

end Tape

/-! ## Selected derivatives -/

namespace Interpretation

/-- Maps with values at the same pairs, where those of the one stand for
those of the other. -/
def meansPairs (a : Arena F) (E : PairMap T) (E' : PairMap R) : Prop :=
  (∀ e, e ∈ E ↔ e ∈ E') ∧ ∀ (e : Nat × Nat) (v : T) (x : R), E[e]? = some v → E'[e]? = some x →
    I.means a v x

variable {E : PairMap T} {E' : PairMap R}

omit [Constants F R] [Arith (Except Failure) R] [ExactNumber F R]

theorem meansPairs.later (h : I.meansPairs a E E') (le : a ≤ a') : I.meansPairs a' E E' :=
  ⟨h.1, fun e v x hv hx => I.later le (h.2 e v x hv hx)⟩

theorem meansPairs.empty : I.meansPairs a ∅ ∅ :=
  ⟨fun e => by simp, fun e v x hv => by simp at hv⟩

theorem meansPairs.insert {v : T} {x : R} (h : I.meansPairs a E E') (e : Nat × Nat)
    (hv : I.means a v x) : I.meansPairs a (E.insert e v) (E'.insert e x) := by
  refine ⟨fun e' => ?_, fun e' u y hu hy => ?_⟩
  · rw [Std.TreeMap.mem_insert, Std.TreeMap.mem_insert, h.1]
  · rw [Std.TreeMap.getElem?_insert] at hu hy
    split at hu
    case isTrue eq =>
        rw [if_pos eq] at hy
        cases hu
        cases hy
        exact hv
    case isFalse ne =>
        rw [if_neg ne] at hy
        exact h.2 e' u y hu hy

end Interpretation

namespace Tape

variable [PowerRule R] {t : Tape F} {vs ws : List T} {xs ωs : List R}

theorem replays_seedInput (j : Nat) (hx : List.Forall₂ (fun v x => I.means a v x) vs xs) :
    Replays lapse (seedInput vs j) (seedInput xs j) a fun us zs a' =>
      List.Forall₂ (fun u z => I.dual.means a' u z) us zs := by
  rw [seedInput, seedInput, hx.length_eq]
  split
  case isFalse => exact replays_throw _
  case isTrue =>
      refine replays_pure (List.forall₂_map_left_iff.mpr (List.forall₂_map_right_iff.mpr ?_))
      refine List.forall₂_iff_get.mpr ⟨by simpa using hx.length_eq, fun i hi hi' => ?_⟩
      have hv := (List.forall₂_iff_get.mp hx).2 i (by simpa using hi) (by simpa using hi')
      have pair := I.means_ofBase (R := R) a (Scalar.one : F)
      have zero := I.means_ofBase (R := R) a (Scalar.zero : F)
      simp only [List.get_eq_getElem, List.getElem_zipIdx, Nat.zero_add]
      split
      · exact ⟨hv, pair⟩
      · exact ⟨hv, zero⟩

theorem replays_jacobianEntries (powers : I.ReplaysPowi) {rows : List IndexSet}
    (hx : List.Forall₂ (fun v x => I.means a v x) vs xs) :
    Replays lapse (t.jacobianEntries vs rows) (t.jacobianEntries xs rows) a fun E E' a' =>
      I.meansPairs a' E E' := by
  rw [jacobianEntries, jacobianEntries]
  refine (replays_checkSize ..).bind fun _ _ a₁ le₁ _ => ?_
  refine replays_foldlM_same (Q := fun E E' a' => I.meansPairs a' E E')
    (fun j _ E E' a₂ le₂ hE => ?_) (.empty I)
  refine (replays_seedInput I j (hx.imp fun _ _ h => I.later (le₁.trans le₂) h)).bind
    fun us zs a₃ le₃ hu => ?_
  refine (replays_forwardSweep I.dual powers.dual hu).bind fun values ys a₄ le₄ hv => ?_
  refine replays_foldlM_same (Q := fun E E' a' => I.meansPairs a' E E')
    (fun ⟨⟨row, o⟩, i⟩ _ E E' a₅ le₅ hE => ?_) (hE.later I (le₃.trans le₄))
  by_cases mem : row.contains j = true
  · simp only [if_pos mem]
    refine ((hv.later I.dual le₅).fetch I.dual o).bind fun u z a₆ le₆ h => ?_
    exact replays_pure ((hE.later I le₆).insert I (i, j) h.2)
  · simp only [if_neg mem]
    exact replays_pure hE

theorem WellFormed.replays_hessianEntries (wf : t.WellFormed) (powers : I.ReplaysPowi)
    (exact : ExactPowers R 0) {pairs : PairSet}
    (hx : List.Forall₂ (fun v x => I.means a v x) vs xs)
    (hω : List.Forall₂ (fun v x => I.means a v x) ws ωs) :
    Replays (¬t.Exponents (Exponent.Lowers 2)) (t.hessianEntries vs ws pairs)
      (t.hessianEntries xs ωs pairs) a fun E E' a' => I.meansPairs a' E E' := by
  rw [hessianEntries, hessianEntries, checkInputs, checkInputs, checkOutputs, checkOutputs,
    hx.length_eq, hω.length_eq]
  refine (replays_checkSize ..).bind fun _ _ a₁ le₁ _ => ?_
  refine (replays_checkSize ..).bind fun _ _ a₂ le₂ _ => ?_
  have le := le₁.trans le₂
  refine replays_foldlM_same (Q := fun E E' a' => I.meansPairs a' E E')
    (fun ⟨j, rows⟩ _ E E' a₃ le₃ hE => ?_) (.empty I)
  have le := le.trans le₃
  refine (replays_seedInput I j (hx.imp fun _ _ h => I.later le h)).bind fun us zs a₄ le₄ hu => ?_
  refine (replays_forwardSweep I.dual powers.dual hu).bind fun values ys a₅ le₅ hv => ?_
  have le := le.trans (le₄.trans le₅)
  have constants : List.Forall₂ (fun u z => I.dual.means a₅ u z) (ws.map Dual.constant)
      (ωs.map Dual.constant) :=
    List.forall₂_map_left_iff.mpr (List.forall₂_map_right_iff.mpr
      (hω.imp fun _ _ h => ⟨I.later le h, I.means_ofBase a₅ _⟩))
  refine (wf.replays_reverseSweep I.dual powers.dual exact.dual hv constants).bind
    fun β β' a₆ le₆ hβ => ?_
  refine replays_foldlM_same (Q := fun E E' a' => I.meansPairs a' E E')
    (fun i _ E E' a₇ le₇ hE => ?_) (hE.later I (le₄.trans (le₅.trans le₆)))
  refine ((hβ.later I.dual le₇).fetch I.dual i).bind fun u z a₈ le₈ h => ?_
  exact replays_pure ((hE.later I le₈).insert I (i, j) h.2)

end Tape

end LoopDiff
