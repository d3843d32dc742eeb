import LoopDiff.Proofs.Graph.Derived
import LoopDiff.Proofs.Loop.Contribution

/-!
# LoopDiff.Proofs.Loop.Multiples

Multiples of a value, in any arithmetic.

A value that is claimed more than once at an iteration is added to itself
before it is written.  Whatever addition does, also where it rounds or
overflows, the number that is written is the number of the value, summed from
the left as often as it is claimed (`summed`), for all inputs that the value
has a number on (`Arena.Sums`).  So a contribution of any value of an arena
amounts to its multiples (`LoopScope.amounts_multiples`).
-/

namespace LoopDiff

variable {F : Type} [Scalar F]

/-- A number added to itself from the left, until it has been counted `count`
times. -/
def summed (count : Nat) (x : F) : F :=
  (List.replicate (count - 1) x).foldl (Scalar.binary .add) x

theorem summed_succ {count : Nat} (counted : 0 < count) (x : F) :
    summed (count + 1) x = Scalar.binary .add (summed count x) x := by
  obtain ⟨count, rfl⟩ : ∃ k, count = k + 1 := ⟨count - 1, by omega⟩
  rw [summed, summed, Nat.add_sub_cancel, Nat.add_sub_cancel, List.replicate_succ',
    List.foldl_append]
  rfl

namespace Arena

variable {a a' : Arena F} {v w : Value F} {r s t : NodeRef} {count : Nat}

/-- Wherever `v` has a number, `w` has the number of `v` summed `count`
times. -/
structure Sums (a : Arena F) (count : Nat) (v w : Value F) : Prop where
  built : a.Built w
  number {a' : Arena F} {inputs : List (Array F)} {it : Option Nat} {x : F} {varies : Bool} :
    a.Preserves a' → Problem.value? ⟨a', inputs⟩ it v = some (x, varies) →
      ∃ varies, Problem.value? ⟨a', inputs⟩ it w = some (summed count x, varies)

theorem Sums.preserve (h : a.Sums count v w) (kept : a.Preserves a') : a'.Sums count v w :=
  ⟨h.built.preserve kept, fun kept' => h.number (kept.trans kept')⟩

theorem Sums.extend (h : a.Sums count v w) (le : a ≤ a') : a'.Sums count v w :=
  h.preserve (preserves_of_le le)

theorem sums_self (h : a.Built v) : a.Sums 1 v v :=
  ⟨h, fun _ hx => ⟨_, hx⟩⟩

theorem sums_const (count : Nat) (x : F) : a.Sums count (.const x) (.const (summed count x)) := by
  refine ⟨.const _, fun _ hx => ?_⟩
  cases hx
  exact ⟨false, rfl⟩

/-- Only a node can stand for itself. -/
theorem eq_of_alike_nodes {vs : List (Value F)} {rs : List NodeRef}
    (h : List.Forall₂ Alike vs (rs.map .node)) : vs = rs.map .node := by
  induction rs generalizing vs with
  | nil => exact List.forall₂_nil_right_iff.mp h
  | cons r rs ih =>
      obtain ⟨v, vs, alike, rest, rfl⟩ := List.forall₂_cons_right_iff.mp h
      rw [List.map_cons, ih rest]
      congr 1
      rcases alike with rfl | same
      · rfl
      · cases v with
        | const x => cases same
        | node s => rw [eq_of_beq same]

/-- A sum that is recorded is one more multiple. -/
theorem Records.sums (h : a.Records t (.op (.binary .add)) [.node s, .node r] [])
    (sums : a.Sums count (.node r) (.node s)) (hr : a.Built (.node r)) (counted : 0 < count) :
    a.Sums (count + 1) (.node r) (.node t) := by
  refine ⟨.of_records h (by simpa using ⟨sums.built, hr⟩) ⟨_, _, rfl⟩,
    fun {a' inputs it x varies} kept hx => ?_⟩
  obtain ⟨arena, n, hn, kind, info, alike, before⟩ := h
  obtain ⟨varies', hy⟩ := sums.number kept hx
  obtain ⟨flag, hn'⟩ := kept.node hn (by rw [kind]; rfl)
  have same : List.Forall₂ Alike n.args ([s, r].map .node) := alike
  have args : n.args = [.node s, .node r] := eq_of_alike_nodes same
  let ys := [(summed count x, varies'), (x, varies)]
  let m : Node F := { n with overwritten := flag }
  have valueArgs : m.valueArgs = [.node s, .node r] := by simp only [m, Node.valueArgs, kind, args]
  refine ⟨m.readsIteration || ys.any Prod.snd, ?_⟩
  rw [Problem.value?, if_pos (arena.trans kept.id_eq.symm)]
  refine Problem.known?_eq_some_iff.mpr ⟨m, ys, hn', ?_, ?_, ?_, rfl⟩
  · rw [valueArgs, ← args]
    exact before
  · rw [valueArgs]
    exact .cons hy (.cons hx .nil)
  · simp only [m, ys, Node.result?, kind, info, Node.operate?, List.map_cons, List.map_nil,
      summed_succ counted]

end Arena

/-- Values that hold multiples of other values. -/
def Meaning.multiples : Meaning F (Nat × Value F) where
  holds a _ w r := a.Sums r.1 r.2 w
  fits h := h.built.fits
  preserve kept h := h.preserve kept

/-- Multiples of a value with a number have the number summed. -/
theorem Meaning.evaluates_multiples {a : Arena F} {inputs : List (Array F)} {it : Nat}
    {r : Nat × Value F} {x : F} {varies : Bool}
    (hx : Problem.value? ⟨a, inputs⟩ (some it) r.2 = some (x, varies)) :
    multiples.Evaluates a inputs it (fun _ y => y = summed r.1 x) r := fun _ sums => by
  obtain ⟨varies', hy⟩ := sums.number (.refl a) hx
  exact ⟨_, varies', hy, rfl⟩

namespace LoopScope

open Arena

variable {a : Arena F} {v : Value F} {count : Nat}

/-- A value is repeated by recording its multiples. -/
theorem yields_repeatedSums (hv : a.Built v) (counted : 0 < count) :
    Yields (repeated v count : Recording F (Value F)) a fun w a' => a'.Sums count v w := by
  have all : (List.range (count - 1)).length + 1 = count := by
    rw [List.length_range]
    omega
  cases v with
  | const x =>
      refine Yields.mono (yields_foldlM (fun done w _ => w = .const (summed (done.length + 1) x))
        rfl ?_) ?_
      · rintro done i rest _ a' - - rfl
        refine Recording.yields_reporting (yields_pure ?_)
        rw [List.length_append, List.length_singleton, summed_succ (Nat.succ_pos _)]
        rfl
      · rintro _ a' - rfl
        rw [all]
        exact sums_const count x
  | node r =>
      refine Yields.mono (yields_foldlM (fun done w a' => ∃ s, w = .node s ∧
        a'.Sums (done.length + 1) (.node r) (.node s)) ⟨r, rfl, sums_self hv⟩ ?_) ?_
      · rintro done i rest _ a' - le ⟨s, rfl, sums⟩
        have hr : a'.Built (.node r) := hv.extend le
        refine Recording.yields_reporting ?_
        rw [Value.binary]
        case x =>
            intro _ _ const
            cases const
        refine ends_lift_bind (sums.built.checkSameArena hr) ?_
        refine ends_get_bind (ends_lift_bind sums.built.checkValue ?_)
        refine ends_get_bind (ends_lift_bind hr.checkValue ?_)
        refine Yields.bind (yields_push_op (sums.built.fits.cons hr.fits)) ?_
        intro t a'' le' records
        refine yields_pure ⟨t, rfl, ?_⟩
        rw [List.length_append, List.length_singleton]
        exact records.sums (sums.extend le') (hr.extend le') (Nat.succ_pos _)
      · rintro _ a' - ⟨s, rfl, sums⟩
        rwa [all] at sums

/-- What a value that is claimed amounts to: at each claim its multiple. -/
def multiplesAt (claims : Claims) (v : Value F) : Stream (Nat × Value F) :=
  fun it => (claims[it]?).map fun c => (c.location, c.count, v)

theorem amounts_multiples (hv : a.Built v) (claims : Claims) :
    Amounts a .multiples claims v (multiplesAt claims v) where
  repeated counted le := by
    refine (yields_repeatedSums (hv.extend le) counted).mono ?_
    rintro w a' - sums
    refine ⟨sums.built.fits, fun it c hc count => ?_⟩
    subst count
    exact ⟨(c.count, v), by rw [multiplesAt, hc]; rfl, sums⟩
  nothing none := by rw [multiplesAt, none, Option.map_none]

end LoopScope

end LoopDiff
