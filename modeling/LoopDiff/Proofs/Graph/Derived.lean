import LoopDiff.Proofs.Graph.Operations

/-!
# LoopDiff.Proofs.Graph.Derived

Values that are built from inputs by operations.

A value is derived if it is a known number, a node of a certain kind, or a node
that computes a number from derived values that come before it
(`Arena.Derived`).  What else the arena holds does not matter.

An operation on values that are built from inputs always succeeds and gives
such a value, whatever the arithmetic of the numbers, and whether or not the
inputs are there: the nodes of loops and branches stay as they are, and so do
all numbers (`Operation.ends_record_built`).
-/

namespace LoopDiff

variable {F : Type}

namespace Kind

/-- Whether a node of this kind reads an input array. -/
def isRead : Kind → Bool
  | independent | indexedRead => true
  | _ => false

theorem tier_of_isValue {kind : Kind} (h : kind.isValue = true) : kind.tier = 0 := by
  cases kind <;> first | rfl | cases h

theorem isValue_of_isRead {kind : Kind} (h : kind.isRead = true) : kind.isValue = true := by
  cases kind <;> first | rfl | cases h

end Kind

namespace Node

variable {n : Node F}

theorem Computes.isValue (h : n.Computes) : n.kind.isValue = true := by
  cases kind : n.kind <;> first | rfl | (simp only [Computes, kind] at h)

/-- A node computes from any arguments, as long as their number is right. -/
theorem Computes.of_length {kind : Kind} {args : List (Value F)} {info : List Nat}
    (h : (⟨kind, args, info, false⟩ : Node F).Computes) (kind_eq : n.kind = kind)
    (info_eq : n.info = info) (len : n.args.length = args.length) : n.Computes := by
  obtain ⟨k, args', words, flag⟩ := n
  cases kind_eq
  cases info_eq
  cases k with
  | assign =>
      obtain ⟨v, rfl⟩ := h
      exact List.length_eq_one_iff.mp len
  | compound op =>
      obtain ⟨v, w, rfl⟩ := h
      exact List.length_eq_two.mp len
  | op code =>
      cases code with
      | unary op =>
          obtain ⟨v, rfl⟩ := h
          exact List.length_eq_one_iff.mp len
      | powi =>
          obtain ⟨v, word, rfl, rfl⟩ := h
          obtain ⟨w, rfl⟩ := List.length_eq_one_iff.mp len
          exact ⟨w, word, rfl, rfl⟩
      | binary op =>
          obtain ⟨v, w, rfl⟩ := h
          exact List.length_eq_two.mp len
      | _ => exact h.elim
  | _ => exact h.elim

end Node

namespace Arena

variable {a a' : Arena F} {source : Kind → Bool} {v w : Value F} {r : NodeRef}

/-! ## Derived values -/

/-- A known number, a node of a certain kind, or a node that computes a number
from derived values that come before it. -/
inductive Derived (source : Kind → Bool) (a : Arena F) : Value F → Prop
  | const (x : F) : Derived source a (.const x)
  | source {r : NodeRef} {n : Node F} : a.node r = .ok n → source n.kind = true →
      Derived source a (.node r)
  | computed {r : NodeRef} {n : Node F} : a.node r = .ok n → n.Computes →
      (∀ s, .node s ∈ n.args → s.index < r.index) → (∀ v ∈ n.args, Derived source a v) →
      Derived source a (.node r)

theorem Derived.preserve (low : ∀ k, source k = true → k.tier = 0) (h : a.Derived source v)
    (kept : a.Preserves a') : a'.Derived source v := by
  have node {r : NodeRef} {n : Node F} (hn : a.node r = .ok n) (tier : n.kind.tier = 0) :
      ∃ flag, a'.node r = .ok { n with overwritten := flag } := by
    obtain ⟨arena, hn⟩ := node_eq_ok_iff.mp hn
    obtain ⟨flag, hn'⟩ := kept.node hn tier
    exact ⟨flag, node_eq_ok_iff.mpr ⟨arena.trans kept.id_eq.symm, hn'⟩⟩
  induction h with
  | const x => exact .const x
  | source hn given =>
      obtain ⟨flag, hn'⟩ := node hn (low _ given)
      exact .source hn' given
  | computed hn computes before _ ih =>
      obtain ⟨flag, hn'⟩ := node hn computes.tier
      exact .computed hn' (computes.overwrite flag) before ih

/-- Values that are built from inputs. -/
abbrev Built (a : Arena F) (v : Value F) : Prop := a.Derived Kind.isRead v

theorem Built.preserve (h : a.Built v) (kept : a.Preserves a') : a'.Built v :=
  Derived.preserve (fun _ read => Kind.tier_of_isValue (Kind.isValue_of_isRead read)) h kept

theorem Built.extend (h : a.Built v) (le : a ≤ a') : a'.Built v :=
  h.preserve (preserves_of_le le)

theorem Built.node (h : a.Built (.node r)) : ∃ n, a.node r = .ok n ∧ n.kind.isValue = true := by
  cases h with
  | source hn read => exact ⟨_, hn, Kind.isValue_of_isRead read⟩
  | computed hn computes => exact ⟨_, hn, computes.isValue⟩

theorem Built.fits {kind : Kind} (h : a.Built v) : a.Fits kind [v] := by
  intro r hr
  rw [← List.mem_singleton.mp hr] at h
  obtain ⟨n, hn, value⟩ := h.node
  exact fits_node hn (by rw [Kind.tier_of_isValue value]; exact Nat.zero_le _) r
    (List.mem_singleton.mpr rfl)

theorem Built.checkValue (h : a.Built v) : a.checkValue v = .ok () :=
  have fits : a.Fits .assign [v] := h.fits
  checkValue_of_fits fits (List.mem_singleton.mpr rfl)

/-- What is left when a value has been recorded: nodes of loops and branches
are untouched, and no number has changed. -/
structure Builds (a : Arena F) (v : Value F) (a' : Arena F) : Prop where
  keeps : a.Keeps (fun _ k => k.isValue = false) a'
  preserves : a.Preserves a'
  built : a'.Built v

theorem builds_of_le (le : a ≤ a') (h : a'.Built v) : a.Builds v a' :=
  ⟨keeps_of_le le, preserves_of_le le, h⟩

/-- Marking a node that holds a number. -/
theorem keeps_marked {n : Node F} (hn : a.node r = .ok n) (value : n.kind.isValue = true) :
    a.Keeps (fun _ k => k.isValue = false) (a.marked r) := by
  have kind {i : Nat} {m : Node F} (hm : a.nodes[i]? = some m) :
      ∃ m', (a.marked r).nodes[i]? = some m' ∧ m'.kind = m.kind := by
    rw [node_marked, hm]
    exact ⟨_, rfl, rfl⟩
  refine ⟨rfl, fun {i m} hm fixed => ?_, kind, fun hp => hp,
    fun _ _ tiered i m hm s hs => ?_⟩
  · rw [node_marked, hm, Option.map_some]
    have other : r.index ≠ i := by
      rintro rfl
      rw [(node_eq_ok_iff.mp hn).2] at hm
      cases hm
      rw [value] at fixed
      cases fixed
    simp [other]
  · rw [node_marked, Option.map_eq_some_iff] at hm
    obtain ⟨k, hk, rfl⟩ := hm
    obtain ⟨arena, t, ht, tier⟩ := tiered i k hk s hs
    obtain ⟨t', ht', eq⟩ := kind ht
    exact ⟨arena, t', ht', eq ▸ tier⟩

theorem Built.checkSameArena (hv : a.Built v) (hw : a.Built w) :
    Value.checkSameArena v w = .ok () := by
  cases v with
  | const x => rfl
  | node r =>
      cases w with
      | const y => rfl
      | node s =>
          obtain ⟨_, hr, -⟩ := hv.node
          obtain ⟨_, hs, -⟩ := hw.node
          rw [Value.checkSameArena, if_pos]
          exact (node_eq_ok_iff.mp hr).1.trans (node_eq_ok_iff.mp hs).1.symm

variable [Scalar F]

theorem Built.of_alike (h : a.Built v) (alike : Alike w v) : a.Built w := by
  rcases alike with rfl | same
  · exact h
  · cases w with
    | const x => exact .const x
    | node r =>
        cases v with
        | const y => cases same
        | node s => rwa [eq_of_beq same]

/-! ## Arithmetic -/

/-- A recorded operation on values that are built from inputs. -/
theorem Built.of_records {code : OpCode} {args : List (Value F)} {info : List Nat}
    (h : a.Records r (.op code) args info) (hargs : ∀ v ∈ args, a.Built v)
    (computes : (⟨.op code, args, info, false⟩ : Node F).Computes) : a.Built (.node r) := by
  obtain ⟨arena, n, hn, kind, info, alike, before⟩ := h
  refine .computed (node_eq arena hn) (computes.of_length kind info alike.length_eq) before
    fun v hv => ?_
  obtain ⟨i, hi⟩ := List.mem_iff_getElem?.mp hv
  obtain ⟨w, hw, alike⟩ := exists_right_of_forall₂ alike hi
  exact (hargs w (List.mem_of_getElem? hw)).of_alike alike

theorem yields_record_op {code : OpCode} {args : List (Value F)} {info : List Nat}
    (hargs : ∀ v ∈ args, a.Built v) (computes : (⟨.op code, args, info, false⟩ : Node F).Computes) :
    Yields (do return .node (← push (.op code) args info) : ArenaM F (Value F)) a
      fun z a' => a'.Built z := by
  have fits : a.Fits (.op code) args := fun r hr => (hargs _ hr).fits r (List.mem_singleton.mpr rfl)
  refine (yields_push_op fits).bind fun r a' le records => yields_pure ?_
  exact .of_records records (fun v hv => (hargs v hv).extend le) computes

theorem Built.of_reduce {code : OpCode} {z : Value F} (hv : a.Built v) (hw : a.Built w)
    (h : Value.reduce code v w = .value z ∨ Value.reduce code v w = .negation z) :
    a.Built z := by
  rcases Value.eq_of_reduce h with rfl | rfl | rfl
  · exact hv
  · exact hw
  · exact .const _

theorem Built.yields_recordUnary (op : Unary) (hv : a.Built v) :
    Yields (Value.recordUnary (.unary op) v) a fun z a' => a'.Built z :=
  ends_get_bind (ends_lift_bind hv.checkValue
    (yields_record_op (by simpa using hv) ⟨v, rfl⟩))

theorem Built.yields_binary (op : Binary) (hv : a.Built v) (hw : a.Built w) :
    Yields (Value.binary (.binary op) v w) a fun z a' => a'.Built z := by
  by_cases constants : ∃ x y, v = .const x ∧ w = .const y
  case pos =>
      obtain ⟨x, y, rfl, rfl⟩ := constants
      exact yields_pure (.const _)
  case neg =>
      rw [Value.binary]
      case x => exact fun x y hv hw => constants ⟨x, y, hv, hw⟩
      refine ends_lift_bind (hv.checkSameArena hw) ?_
      refine ends_get_bind (ends_lift_bind hv.checkValue ?_)
      refine ends_get_bind (ends_lift_bind hw.checkValue ?_)
      cases reduced : Value.reduce (.binary op) v w with
      | value z => exact yields_pure (hv.of_reduce hw (.inl reduced))
      | negation z => exact (hv.of_reduce hw (.inr reduced)).yields_recordUnary _
      | operation => exact yields_record_op (by simpa using ⟨hv, hw⟩) ⟨v, w, rfl⟩

theorem Built.yields_unary (op : Unary) (hv : a.Built v) :
    Yields (Value.unary (.unary op) v) a fun z a' => a'.Built z := by
  cases v with
  | const x => exact yields_pure (.const _)
  | node r => exact hv.yields_recordUnary op

theorem Built.yields_powi (n : Int32) (hv : a.Built v) :
    Yields (Value.powi v n) a fun z a' => a'.Built z := by
  cases v with
  | const x => exact yields_pure (.const _)
  | node r =>
      simp only [Value.powi]
      split
      case isTrue => exact yields_pure (.const _)
      case isFalse =>
          split
          case isTrue => exact yields_pure hv
          case isFalse =>
              exact ends_get_bind (ends_lift_bind hv.checkValue
                (yields_record_op (by simpa using hv) ⟨_, _, rfl, rfl⟩))

/-! ## Slots -/

/-- A new node that computes a number. -/
theorem yields_push_computed {kind : Kind} {args : List (Value F)}
    (structural : ∀ code, kind ≠ .op code) (hargs : ∀ v ∈ args, a.Built v)
    (computes : (⟨kind, args, [], false⟩ : Node F).Computes) :
    Yields (push kind args []) a fun r a' => a'.Built (.node r) := by
  have fits : a.Fits kind args := fun r hr => (hargs _ hr).fits r (List.mem_singleton.mpr rfl)
  refine (ends_push_new structural fits).mono ?_
  rintro _ _ ⟨rfl, rfl⟩
  refine ⟨le_pushed fits, .computed (node_eq rfl (node_pushed_self a _)) computes (fun s hs => ?_)
    fun v hv => (hargs v hv).extend (le_pushed fits)⟩
  obtain ⟨-, m, hm, -⟩ := fits s hs
  exact (Array.getElem?_eq_some_iff.mp hm).1

theorem Built.yields_pushAssign (hv : a.Built v) :
    Yields (push .assign [v] []) a fun r a' => a'.Built (.node r) :=
  yields_push_computed nofun (by simpa using hv) ⟨v, rfl⟩

theorem Built.yields_toNode (hv : a.Built v) :
    Yields (Value.toNode v) a fun z a' => a'.Built z := by
  cases v with
  | const x => exact Yields.bind hv.yields_pushAssign fun _ _ _ h => yields_pure h
  | node r => exact ends_get_bind (ends_lift_bind hv.checkValue (yields_pure hv))

omit [Scalar F] in
theorem Built.ends_markOverwritten (hr : a.Built (.node r)) :
    Ends (markOverwritten r) a fun _ a' => a.Keeps (fun _ k => k.isValue = false) a' ∧
      a.Preserves a' := by
  obtain ⟨n, hn, value⟩ := hr.node
  refine (Arena.ends_markOverwritten hr.checkValue).mono ?_
  rintro _ _ rfl
  exact ⟨keeps_marked hn value, preserves_marked a r⟩

theorem Built.ends_replace (op : Compound) (hr : a.Built (.node r)) (hv : a.Built v) :
    Ends (Value.replace op r v) a fun z a' => a.Builds z a' := by
  refine Worlds.Ends.bind hr.ends_markOverwritten ?_
  rintro _ a₁ ⟨keeps, kept⟩
  have operands (w : Value F) (h : w ∈ [.node r, v]) : a₁.Built w := by
    rcases List.mem_pair.mp h with rfl | rfl
    · exact hr.preserve kept
    · exact hv.preserve kept
  refine Worlds.Ends.bind (yields_push_computed nofun operands ⟨_, v, rfl⟩) ?_
  rintro s a₂ ⟨le, built⟩
  exact ends_pure ⟨keeps.trans (keeps_of_le le), kept.trans (preserves_of_le le), built⟩

theorem Built.ends_compound (op : Compound) (hslot : a.Built v) (hw : a.Built w) :
    Ends (Value.compound op v w) a fun z a' => a.Builds z a' := by
  have there {z : Value F} (h : a.Built z) : a.Builds z a := builds_of_le le_rfl h
  cases v with
  | const x =>
      cases w with
      | const y => exact ends_pure (there (.const _))
      | node s =>
          have asNode : Ends (do
              Value.replace op (← push .assign [.const x] []) (.node s) : ArenaM F (Value F)) a
                fun z a' => a.Builds z a' := by
            refine Worlds.Ends.bind hslot.yields_pushAssign ?_
            rintro n a₁ ⟨le, hn⟩
            refine (hn.ends_replace op (hw.extend le)).mono fun z a₂ h => ?_
            exact ⟨(keeps_of_le le).trans h.keeps, (preserves_of_le le).trans h.preserves, h.built⟩
          refine ends_get_bind (ends_lift_bind hw.checkValue ?_)
          cases op <;> repeat' split
          all_goals first
            | exact ends_pure (there hw)
            | exact ends_pure (there hslot)
            | exact asNode
  | node r =>
      refine ends_lift_bind (hslot.checkSameArena hw) ?_
      refine ends_get_bind (ends_lift_bind hw.checkValue ?_)
      refine ends_get_bind (ends_lift_bind hslot.checkValue ?_)
      have erased : Ends (do
          markOverwritten r
          return .const Scalar.zero : ArenaM F (Value F)) a fun z a' => a.Builds z a' := by
        refine Worlds.Ends.bind hslot.ends_markOverwritten ?_
        rintro _ a₁ ⟨keeps, kept⟩
        exact ends_pure ⟨keeps, kept, .const _⟩
      cases op <;> repeat' split
      all_goals first
        | exact ends_pure (there hslot)
        | exact erased
        | exact hslot.ends_replace _ hw

end Arena

namespace Operation

open Arena

variable [Scalar F] {a : Arena F}

/-- An operation on values that are built from inputs gives such a value. -/
theorem ends_record_built {s : Operation (Value F)} (h : ∀ v ∈ s.operands, a.Built v) :
    Ends s.record a fun z a' => a.Builds z a' := by
  have builds {c : ArenaM F (Value F)} (hc : Yields c a fun z a' => a'.Built z) :
      Ends c a fun z a' => a.Builds z a' :=
    Worlds.Ends.mono hc fun _ _ ⟨le, h⟩ => builds_of_le le h
  cases s with
  | binary op v w =>
      exact builds ((h v (by simp [operands])).yields_binary op (h w (by simp [operands])))
  | unary op v => exact builds ((h v (by simp [operands])).yields_unary op)
  | powi v n => exact builds ((h v (by simp [operands])).yields_powi _)
  | compound op v w => exact (h v (by simp [operands])).ends_compound op (h w (by simp [operands]))
  | toNode v => exact builds (h v (by simp [operands])).yields_toNode

end Operation

end LoopDiff
