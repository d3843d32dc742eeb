import LoopDiff.Proofs.Graph.Denotation
import LoopDiff.Proofs.Interpretation

/-!
# LoopDiff.Proofs.Graph.Values

Recorded values that stand for ring elements.

A value of an arena means the ring element that its number is read as, for
given input arrays and at a given iteration (`Arena.Means`).  Arithmetic on
values means arithmetic in the ring, whether it is folded, reduced by an
identity, found among the nodes or recorded anew.  So recorded values are an
`Interpretation`, and whatever holds of a tape run on ring elements holds of
the graph that the tape records.
-/

namespace LoopDiff

variable {F R : Type} [Scalar F] [Elementary R] [Reading F R] {inputs : List (Array F)}
  {it : Option Nat}

namespace Arena

/-- A value stands for `r` on the given inputs, at an iteration or outside
of loops. -/
def Means (a : Arena F) (inputs : List (Array F)) (it : Option Nat) (v : Value F) (r : R) : Prop :=
  ∃ x varies, Problem.value? ⟨a, inputs⟩ it v = some (x, varies) ∧ embed x = r

variable {a a' : Arena F} {v w : Value F} {r s : R}

theorem Means.preserve (h : a.Means inputs it v r) (kept : a.Preserves a') :
    a'.Means inputs it v r := by
  obtain ⟨x, varies, hx, eq⟩ := h
  exact ⟨x, varies, Problem.value?_preserved kept hx, eq⟩

theorem Means.keep (h : a.Means inputs it v r) {P : Nat → Kind → Prop}
    (low : ∀ i k, k.tier = 0 → P i k) (keeps : a.Keeps P a') : a'.Means inputs it v r :=
  h.preserve (keeps.preserves low)

theorem Means.extend (h : a.Means inputs it v r) (le : a ≤ a') : a'.Means inputs it v r :=
  h.keep (fun _ _ _ => trivial) le

theorem means_const (x : F) :
    a.Means inputs it (.const x) (embed x : R) :=
  ⟨x, false, rfl, rfl⟩

theorem means_zero : a.Means inputs it (.const Scalar.zero) (0 : R) :=
  ⟨Scalar.zero, false, rfl, Embeds.embed_zero⟩

/-- A node with a meaning is one of this arena, of the lowest tier. -/
theorem Means.node {n : NodeRef} (h : a.Means inputs it (.node n) r) :
    n.arena = a.id ∧ ∃ m, a.nodes[n.index]? = some m ∧ m.kind.tier = 0 := by
  obtain ⟨x, varies, hx, -⟩ := h
  simp only [Problem.value?] at hx
  split at hx
  case isTrue arena => exact ⟨arena, Problem.tier_of_known? hx⟩
  case isFalse => cases hx

theorem Means.checkValue (h : a.Means inputs it v r) : a.checkValue v = .ok () := by
  cases v with
  | const x => rfl
  | node n =>
      obtain ⟨arena, m, hm, -⟩ := h.node
      have lt := (Array.getElem?_eq_some_iff.mp hm).1
      simp [Arena.checkValue, check, owns, arena, size, lt]

theorem Means.isZero (h : a.Means inputs it v r) (zero : v.isZero = true) : r = 0 := by
  cases v with
  | const x =>
      obtain ⟨_, _, hx, rfl⟩ := h
      cases hx
      exact Reading.embed_isZero zero
  | node n => cases zero

theorem Means.isOne (h : a.Means inputs it v r) (one : v.isOne = true) : r = 1 := by
  cases v with
  | const x =>
      obtain ⟨_, _, hx, rfl⟩ := h
      cases hx
      exact Reading.embed_isOne one
  | node n => cases one

/-- Interchangeable arguments mean the same. -/
theorem Means.of_same (h : a.Means inputs it v r) (same : w.same v = true) :
    a.Means inputs it w r := by
  cases v <;> cases w <;> simp only [Value.same] at same
  case const.const x y =>
      obtain ⟨_, _, hx, rfl⟩ := h
      cases hx
      exact ⟨y, false, rfl, Reading.embed_same same⟩
  case node.node m n =>
      rw [eq_of_beq same]
      exact h
  all_goals cases same

theorem Means.fits {kind : Kind} (h : a.Means inputs it v r) : a.Fits kind [v] := by
  intro n hn
  rw [List.mem_singleton] at hn
  obtain ⟨arena, m, hm, tier⟩ := (hn ▸ h).node
  exact ⟨arena, m, hm, tier ▸ Nat.zero_le _⟩

theorem Means.of_alike (h : a.Means inputs it v r) (alike : Alike w v) : a.Means inputs it w r := by
  rcases alike with rfl | same
  · exact h
  · exact h.of_same same

/-! ## Recorded operations -/

/-- What a recorded operation means, from what its arguments mean. -/
theorem Records.means {code : OpCode} {n : NodeRef} {args : List (Value F)} {info : List Nat}
    {rs : List R} (h : a.Records n (.op code) args info)
    (hargs : List.Forall₂ (fun v r => a.Means inputs it v r) args rs)
    (operates : ∀ xs : List F, xs.map embed = rs →
      ∃ z, Node.operate? code xs info = some z ∧ embed z = r) :
    a.Means inputs it (.node n) r := by
  obtain ⟨arena, m, hm, kind, hinfo, alike, lt⟩ := h
  have known : ∃ ys : List (F × Bool), List.Forall₂ (fun v y =>
      Problem.value? ⟨a, inputs⟩ it v = some y) m.args ys ∧ (ys.map Prod.fst).map embed = rs := by
    clear hm lt operates
    generalize m.args = args' at alike
    induction alike generalizing rs with
    | nil =>
        cases hargs
        exact ⟨[], .nil, rfl⟩
    | cons alike _ ih =>
        cases hargs with
        | cons hv hargs =>
            obtain ⟨ys, hys, eq⟩ := ih hargs
            obtain ⟨x, varies, hx, rfl⟩ := hv.of_alike alike
            exact ⟨(x, varies) :: ys, .cons hx hys, by simp [← eq]⟩
  obtain ⟨ys, hys, eq⟩ := known
  obtain ⟨z, hz, rfl⟩ := operates _ eq
  have args_eq : m.valueArgs = m.args := by rw [Node.valueArgs, kind]
  refine ⟨z, m.readsIteration || ys.any Prod.snd, ?_, rfl⟩
  rw [Problem.value?, if_pos arena]
  refine Problem.known?_eq_some_iff.mpr ⟨m, ys, hm, args_eq ▸ lt, args_eq ▸ hys, ?_, rfl⟩
  simp only [Node.result?, kind, hinfo, hz]

theorem yields_record_binary (op : Binary) (hv : a.Means inputs it v r)
    (hw : a.Means inputs it w s) :
    Yields (do return .node (← push (.op (.binary op)) [v, w] []) : ArenaM F (Value F)) a
      fun z a' => a'.Means inputs it z (Elementary.binary op r s) := by
  refine (yields_push_op (hv.fits.cons hw.fits)).bind fun n a' le records => yields_pure ?_
  refine records.means (.cons (hv.extend le) (.cons (hw.extend le) .nil)) fun xs eq => ?_
  obtain ⟨x, y, rfl⟩ : ∃ x y, xs = [x, y] := by
    match xs, eq with
    | [x, y], _ => exact ⟨x, y, rfl⟩
  simp only [List.map_cons, List.map_nil, List.cons.injEq, and_true] at eq
  exact ⟨_, rfl, by rw [Reading.embed_binary, eq.1, eq.2]⟩

theorem yields_recordUnary (op : Unary) (hv : a.Means inputs it v r) :
    Yields (Value.recordUnary (.unary op) v : ArenaM F (Value F)) a fun z a' =>
      a'.Means inputs it z (Elementary.unary op r) := by
  refine ends_get_bind (ends_lift_bind hv.checkValue ?_)
  refine Yields.bind (yields_push_op hv.fits) fun n a' le records => yields_pure ?_
  refine records.means (.cons (hv.extend le) .nil) fun xs eq => ?_
  obtain ⟨x, rfl⟩ : ∃ x, xs = [x] := by
    match xs, eq with
    | [x], _ => exact ⟨x, rfl⟩
  simp only [List.map_cons, List.map_nil, List.cons.injEq, and_true] at eq
  exact ⟨_, rfl, by rw [Reading.embed_unary, eq]⟩

end Arena

/-! ## Arithmetic -/

namespace Value

open Arena

variable {a : Arena F} {v w : Value F} {r s : R}

theorem checkSameArena_of_means (hv : a.Means inputs it v r) (hw : a.Means inputs it w s) :
    checkSameArena v w = .ok () := by
  cases v with
  | const x => rfl
  | node m =>
      cases w with
      | const y => rfl
      | node n => rw [checkSameArena, if_pos (hv.node.1.trans hw.node.1.symm)]

/-- The identities give the value of the operation. -/
theorem reduce_means (op : Binary) (hv : a.Means inputs it v r) (hw : a.Means inputs it w s) :
    match reduce (.binary op) v w with
    | .value z => a.Means inputs it z (Elementary.binary op r s)
    | .negation z => ∃ t, a.Means inputs it z t ∧ Elementary.unary .neg t = Elementary.binary op r s
    | .operation => True := by
  cases op with
  | add =>
      simp only [reduce]
      by_cases zero : v.isZero = true
      · rw [if_pos zero]
        simpa [Elementary.binary, hv.isZero zero] using hw
      · rw [if_neg zero]
        by_cases zero : w.isZero = true
        · rw [if_pos zero]
          simpa [Elementary.binary, hw.isZero zero] using hv
        · rw [if_neg zero]
          trivial
  | sub =>
      simp only [reduce]
      by_cases zero : w.isZero = true
      · rw [if_pos zero]
        simpa [Elementary.binary, hw.isZero zero] using hv
      · rw [if_neg zero]
        by_cases zero : v.isZero = true
        · rw [if_pos zero]
          exact ⟨s, hw, by rw [Elementary.unary_neg, hv.isZero zero, Elementary.binary, zero_sub]⟩
        · rw [if_neg zero]
          trivial
  | mul =>
      simp only [reduce]
      by_cases zero : (v.isZero || w.isZero) = true
      · rw [if_pos zero]
        have : Elementary.binary .mul r s = 0 := by
          rcases (Bool.or_eq_true _ _).mp zero with zero | zero
          · rw [Elementary.binary, hv.isZero zero, zero_mul]
          · rw [Elementary.binary, hw.isZero zero, mul_zero]
        rw [this]
        exact means_zero
      · rw [if_neg zero]
        by_cases one : v.isOne = true
        · rw [if_pos one]
          simpa [Elementary.binary, hv.isOne one] using hw
        · rw [if_neg one]
          by_cases one : w.isOne = true
          · rw [if_pos one]
            simpa [Elementary.binary, hw.isOne one] using hv
          · rw [if_neg one]
            trivial
  | div =>
      simp only [reduce]
      by_cases one : w.isOne = true
      · rw [if_pos one]
        simpa [Elementary.binary, hw.isOne one, Elementary.recip_one] using hv
      · rw [if_neg one]
        by_cases zero : v.isZero = true
        · rw [if_pos zero]
          have : Elementary.binary .div r s = 0 := by
            rw [Elementary.binary, hv.isZero zero, zero_mul]
          rw [this]
          exact means_zero
        · rw [if_neg zero]
          trivial
  | pow => trivial

theorem yields_binary (op : Binary) (hv : a.Means inputs it v r) (hw : a.Means inputs it w s) :
    Yields (Value.binary (.binary op) v w : ArenaM F (Value F)) a fun z a' =>
      a'.Means inputs it z (Elementary.binary op r s) := by
  have recorded : Yields (do
      checkSameArena v w
      (← get).checkValue v
      (← get).checkValue w
      match reduce (.binary op) v w with
      | .value v => return v
      | .negation v => recordUnary (.unary .neg) v
      | .operation => return .node (← Arena.push (.op (.binary op)) [v, w] []) :
        ArenaM F (Value F)) a fun z a' => a'.Means inputs it z (Elementary.binary op r s) := by
    refine ends_lift_bind (checkSameArena_of_means hv hw) ?_
    refine ends_get_bind (ends_lift_bind hv.checkValue ?_)
    refine ends_get_bind (ends_lift_bind hw.checkValue ?_)
    have identity := reduce_means op hv hw
    generalize reduce (.binary op) v w = reduced at identity ⊢
    cases reduced with
    | value z => exact yields_pure identity
    | negation z =>
        obtain ⟨t, ht, eq⟩ := identity
        exact eq ▸ yields_recordUnary .neg ht
    | operation => exact yields_record_binary op hv hw
  cases v with
  | const x =>
      cases w with
      | const y =>
          obtain ⟨_, _, hx, rfl⟩ := hv
          obtain ⟨_, _, hy, rfl⟩ := hw
          cases hx
          cases hy
          refine yields_pure ?_
          rw [← Reading.embed_binary]
          exact means_const _
      | node n => exact recorded
  | node m => exact recorded

theorem yields_unary (op : Unary) (hv : a.Means inputs it v r) :
    Yields (Value.unary (.unary op) v : ArenaM F (Value F)) a fun z a' =>
      a'.Means inputs it z (Elementary.unary op r) := by
  cases v with
  | const x =>
      obtain ⟨_, _, hx, rfl⟩ := hv
      cases hx
      refine yields_pure ?_
      rw [← Reading.embed_unary]
      exact means_const _
  | node n => exact yields_recordUnary op hv

theorem yields_powi (n : Int32) (hv : a.Means inputs it v r) :
    Yields (Value.powi v n : ArenaM F (Value F)) a fun z a' =>
      a'.Means inputs it z (Elementary.powi r n.toInt) := by
  cases v with
  | const x =>
      obtain ⟨_, _, hx, rfl⟩ := hv
      cases hx
      refine yields_pure ?_
      rw [← Reading.embed_powi]
      exact means_const _
  | node m =>
      rw [powi]
      by_cases zero : n = 0
      · rw [if_pos zero, zero, Int32.toInt_zero, Elementary.powi_zero, ← Embeds.embed_one (F := F)]
        exact yields_pure (means_const _)
      rw [if_neg zero]
      by_cases one : n = 1
      · rw [if_pos one, one, Int32.toInt_one, Elementary.powi_one]
        exact yields_pure hv
      rw [if_neg one]
      refine ends_get_bind (ends_lift_bind hv.checkValue ?_)
      refine Yields.bind (yields_push_op hv.fits) fun k a' le records => yields_pure ?_
      refine records.means (.cons (hv.extend le) .nil) fun xs eq => ?_
      obtain ⟨x, rfl, value⟩ := List.map_eq_singleton_iff.mp eq
      refine ⟨_, rfl, ?_⟩
      rw [Exponent.decode_encode, Reading.embed_powi, value]

end Value

namespace Recording

open Arena

variable {a : Arena F} {v w : Value F} {r s : R}

omit [Scalar F] in
theorem yields_reporting {β : Type} {c : ArenaM F β} {Q : β → Arena F → Prop} (h : Yields c a Q) :
    Yields (reporting c) a Q :=
  ends_reporting h

theorem yields_binary (op : Binary) (hv : a.Means inputs it v r) (hw : a.Means inputs it w s) :
    Yields (Recording.binary (.binary op) v w) a fun z a' =>
      a'.Means inputs it z (Elementary.binary op r s) :=
  ends_binary (Value.yields_binary op hv hw)

theorem yields_unary (op : Unary) (hv : a.Means inputs it v r) :
    Yields (Recording.unary (.unary op) v) a fun z a' =>
      a'.Means inputs it z (Elementary.unary op r) :=
  ends_unary (Value.yields_unary op hv)

theorem yields_powi (n : Int32) (hv : a.Means inputs it v r) :
    Yields (Recording.powi v n) a fun z a' => a'.Means inputs it z (Elementary.powi r n.toInt) :=
  ends_powi (Value.yields_powi n hv)

end Recording

variable (R) in
/-- Recorded values, at an iteration of the innermost loop or outside of
loops. -/
def Interpretation.recorded (inputs : List (Array F)) (it : Option Nat) :
    Interpretation (Recording F) F (Value F) R where
  means a v r := a.Means inputs it v r
  exponent _ := True
  later le h := h.extend le
  ofBase _ x := Arena.means_const x
  isZero h zero := h.isZero zero
  binary op := fun hx hy => Recording.yields_binary op hx hy
  unary op := fun hx => Recording.yields_unary op hx
  powi _ hx := Recording.yields_powi _ hx

/-- Every integer power can be recorded. -/
theorem Interpretation.takes_recorded (inputs : List (Array F)) (it : Option Nat) :
    (Interpretation.recorded R inputs it).Takes 0 :=
  fun _ _ => trivial

end LoopDiff
