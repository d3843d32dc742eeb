import LoopDiff.Proofs.Graph.Values
import LoopDiff.Proofs.Loop.Branching
import Mathlib.Algebra.BigOperators.Group.List.Basic

/-!
# LoopDiff.Proofs.Loop.Emission

What the results of a loop send to which locations.

A `Stream` gives, for each iteration, the location a value is written to and
what the value stands for, if it is written at all.  A result of a loop
emits streams (`Arena.Emits`): a write emits one, and a conditional one for
every value that was placed in its branches.

A finished loop accumulates, at each location, the sum of all that its
streams send there (`accumulator_eq`), provided that every write adds to
what is at its location or is the only one that writes there.
-/

namespace LoopDiff

open Std (TreeMap)

variable {F R : Type}

/-- Where a value goes at an iteration, and what it stands for there. -/
abbrev Stream (R : Type) := Nat → Option (Nat × R)

/-- What is sent to a location. -/
def sentTo [Zero R] (location : Nat) (e : Nat × R) : R := if e.1 = location then e.2 else 0

/-- What streams send to a location at an iteration. -/
def total [AddCommMonoid R] (fs : List (Stream R)) (it location : Nat) : R :=
  ((fs.filterMap fun f => f it).map (sentTo location)).sum

/-- What streams send to a location over the first `n` iterations. -/
def sent [AddCommMonoid R] (n : Nat) (fs : List (Stream R)) (location : Nat) : R :=
  ((List.range n).map fun it => total fs it location).sum

/-- Streams that are written by replacing what is at a location go to a
location at most once. -/
def Settles (add : Bool) (n : Nat) (fs : List (Stream R)) : Prop :=
  add = true ∨
    ((List.range n).flatMap fun it => fs.filterMap fun f => (f it).map Prod.fst).Nodup

section

variable [AddCommMonoid R]

@[simp] theorem total_nil (it location : Nat) : total ([] : List (Stream R)) it location = 0 :=
  rfl

theorem total_append (fs gs : List (Stream R)) (it location : Nat) :
    total (fs ++ gs) it location = total fs it location + total gs it location := by
  rw [total, List.filterMap_append, List.map_append, List.sum_append]
  rfl

theorem total_singleton (f : Stream R) (it location : Nat) :
    total [f] it location = (f it).elim 0 (sentTo location) := by
  rw [total, List.filterMap_cons]
  cases f it <;> simp

theorem total_perm {fs gs : List (Stream R)} (h : fs.Perm gs) (it location : Nat) :
    total fs it location = total gs it location :=
  ((h.filterMap _).map _).sum_eq

theorem sent_nil (n location : Nat) :
    sent n ([] : List (Stream R)) location = 0 := by
  simp [sent, total]

theorem sent_perm {fs gs : List (Stream R)} (h : fs.Perm gs) (n location : Nat) :
    sent n fs location = sent n gs location := by
  rw [sent, sent]
  exact congrArg List.sum (List.map_congr_left fun it _ => total_perm h it location)

/-- What is sent to a location is sent by the pairs for that location. -/
theorem sent_eq_sum (n : Nat) (fs : List (Stream R)) (location : Nat) : sent n fs location =
    (((List.range n).flatMap fun it => fs.filterMap fun f => f it).map (sentTo location)).sum := by
  rw [sum_map_flatMap]
  rfl

/-- At most one of the pairs is for a location, and it has the value of the
location. -/
theorem sum_sentTo {es : List (Nat × R)} {y : Nat → R} (nodup : (es.map Prod.fst).Nodup)
    (values : ∀ e ∈ es, e.2 = y e.1) (location : Nat) :
    (es.map (sentTo location)).sum = if location ∈ es.map Prod.fst then y location else 0 := by
  induction es with
  | nil => simp
  | cons e es ih =>
      obtain ⟨free, nodup⟩ := List.nodup_cons.mp nodup
      have value := values e (List.mem_cons_self ..)
      rw [List.map_cons, List.sum_cons, ih nodup fun e he => values e (List.mem_cons_of_mem _ he),
        List.map_cons, sentTo]
      by_cases here : e.1 = location
      · rw [if_pos here, value, if_neg (here ▸ free), here, if_pos (List.mem_cons_self ..), add_zero]
      · have mem : location ∈ e.1 :: es.map Prod.fst ↔ location ∈ es.map Prod.fst := by
          rw [List.mem_cons, or_iff_right (Ne.symm here)]
        rw [if_neg here, zero_add, if_congr mem rfl rfl]

/-- What is sent to one place adds up. -/
theorem sum_sentTo_map {α : Type} (l : List α) (f : α → R) (location location' : Nat) :
    (l.map fun x => sentTo location (location', f x)).sum =
      sentTo location (location', (l.map f).sum) := by
  by_cases eq : location' = location
  · simp [sentTo, eq]
  · simp [sentTo, eq]

omit [AddCommMonoid R] in
theorem Settles.perm {fs gs : List (Stream R)} {add : Bool} {n : Nat} (h : Settles add n gs)
    (perm : fs.Perm gs) : Settles add n fs :=
  h.imp_right fun nodup =>
    (List.Perm.flatMap_left _ fun _ _ => perm.filterMap _).nodup_iff.mpr nodup

end

/-- What recorded values stand for at the iterations of a loop. -/
structure Meaning (F R : Type) where
  holds : Arena F → Nat → Value F → R → Prop
  fits {a : Arena F} {it : Nat} {v : Value F} {r : R} : holds a it v r →
    a.Fits .indexedWrite [v]
  preserve {a a' : Arena F} {it : Nat} {v : Value F} {r : R} : a.Preserves a' →
    holds a it v r → holds a' it v r

theorem Meaning.extend (M : Meaning F R) {a a' : Arena F} {it : Nat} {v : Value F} {r : R}
    (le : a ≤ a') (h : M.holds a it v r) : M.holds a' it v r :=
  M.preserve (Arena.preserves_of_le le) h

/-- Values stand for what their numbers are read as. -/
def Meaning.numbers [Scalar F] [Elementary R] [Reading F R] (inputs : List (Array F)) :
    Meaning F R where
  holds a it v r := a.Means inputs (some it) v r
  fits h := h.fits
  preserve kept h := h.preserve kept

variable {M : Meaning F R} {n : Nat} {add : Bool}

namespace Arena

variable {P : Nat → Kind → Prop} {a a' : Arena F}

/-- A node writes a value that stands for `y.2` to the location `y.1`. -/
def WritesAt (a : Arena F) (M : Meaning F R) (add : Bool) (w : NodeRef) (it : Nat)
    (y : Nat × R) : Prop :=
  ∃ m v index pattern, a.node w = .ok m ∧ m.kind = .indexedWrite ∧ m.args = [v, index] ∧
    m.info = [pattern, if add then 1 else 0] ∧ M.holds a it v y.2 ∧
    ((a.pattern? pattern).bind fun q => q.eval it) = some y.1

/-- A conditional that sends streams through its branches: every branch has
one result for each of them. -/
structure Sends (a : Arena F) (M : Meaning F R) (n : Nat) (add : Bool) (sk : Skeleton)
    (results : List (List NodeRef)) (fs : List (Stream R)) : Prop where
  conditional : a.Conditional n sk results
  sent {k : Nat} {b : Branch} : sk.branches[k]? = some b →
    List.Forall₂ (fun r f => ∃ w, a.Guards r b.node w ∧ ∀ it ∈ b.iterations, it < n →
      ∃ y, f it = some y ∧ a.WritesAt M add w it y) (results.getD k []) fs
  nothing {f : Stream R} {it : Nat} : f ∈ fs → it < n → (∀ b ∈ sk.branches, it ∉ b.iterations) →
    f it = none

/-- A result of a loop and the streams it emits. -/
inductive Emits (a : Arena F) (M : Meaning F R) (n : Nat) (add : Bool) :
    NodeRef → List (Stream R) → Prop
  | write {r : NodeRef} {f : Stream R} :
      (∀ it < n, ∃ y, f it = some y ∧ a.WritesAt M add r it y) → Emits a M n add r [f]
  | conditional {sk : Skeleton} {results : List (List NodeRef)} {fs : List (Stream R)} :
      a.Sends M n add sk results fs → Emits a M n add sk.endIf fs

/-- A finished loop with its results and the streams they emit. -/
structure Loops (a : Arena F) (M : Meaning F R) (n : Nat) (add : Bool) (loop : NodeRef)
    (emitted : List (NodeRef × List (Stream R))) : Prop where
  node : ∃ m start, a.node loop = .ok m ∧ m.kind = .loopEnd ∧
    m.args = .node start :: emitted.map (.node ∘ Prod.fst) ∧
    ∃ ms, a.node start = .ok ms ∧ ms.kind = .loopStart ∧ ms.info[1]? = some n
  emits {e : NodeRef × List (Stream R)} : e ∈ emitted → a.Emits M n add e.1 e.2

/-! ## What stays -/

theorem WritesAt.keep {w : NodeRef} {it : Nat} {y : Nat × R} (h : a.WritesAt M add w it y)
    (keeps : a.Keeps P a') (fixed : ∀ i k, k.isFixed = true → P i k) (kept : a.Preserves a') :
    a'.WritesAt M add w it y := by
  obtain ⟨m, v, index, pattern, hm, kind, args, info, means, eval⟩ := h
  refine ⟨m, v, index, pattern, keeps.node_eq hm (fixed _ _ (by rw [kind]; rfl)), kind, args, info,
    M.preserve kept means, ?_⟩
  obtain ⟨q, hq, eval⟩ := Option.bind_eq_some_iff.mp eval
  obtain ⟨q', hq', rfl⟩ := Option.map_eq_some_iff.mp hq
  rw [pattern?, keeps.pattern hq']
  exact eval

theorem WritesAt.extend {w : NodeRef} {it : Nat} {y : Nat × R} (h : a.WritesAt M add w it y)
    (le : a ≤ a') : a'.WritesAt M add w it y :=
  h.keep le (fun _ _ _ => trivial) (preserves_of_le le)

theorem Sends.keep {sk : Skeleton} {results : List (List NodeRef)} {fs : List (Stream R)}
    (h : a.Sends M n add sk results fs) (keeps : a.Keeps P a')
    (fixed : ∀ i k, k.isFixed = true → P i k) (kept : a.Preserves a')
    (own : ∀ b ∈ sk.branches, ∀ k, k.tier = 1 → P b.node.index k)
    (endIf : ∀ k, k.tier = 1 → P sk.endIf.index k) : a'.Sends M n add sk results fs where
  conditional := h.conditional.keep keeps fixed own endIf
  sent hb := by
    refine (h.sent hb).imp fun r f => ?_
    rintro ⟨w, guards, writes⟩
    refine ⟨w, guards.keep keeps fixed, fun it hit lt => ?_⟩
    obtain ⟨y, hy, at_⟩ := writes it hit lt
    exact ⟨y, hy, at_.keep keeps fixed kept⟩
  nothing := h.nothing

/-- The kinds of node that a loop is made of: all but those that loops are
appended to. -/
def LoopKind (_ : Nat) (k : Kind) : Prop := k ≠ .accumulate

theorem loopKind_of_not_appendable {i : Nat} {k : Kind} (h : k.isAppendable = false) :
    LoopKind i k := by
  rintro rfl
  cases h

theorem loopKind_of_fixed (i : Nat) (k : Kind) (h : k.isFixed = true) : LoopKind i k :=
  loopKind_of_not_appendable (Kind.isAppendable_of_isFixed h)

theorem loopKind_of_tier_zero (i : Nat) (k : Kind) (h : k.tier = 0) : LoopKind i k :=
  loopKind_of_not_appendable (Kind.not_appendable_of_tier h)

theorem loopKind_of_tier {i : Nat} {k : Kind} (h : k.tier = 1) : LoopKind i k := by
  rintro rfl
  cases h

theorem Emits.keep {r : NodeRef} {fs : List (Stream R)} (h : a.Emits M n add r fs)
    (keeps : a.Keeps LoopKind a') : a'.Emits M n add r fs := by
  have kept := keeps.preserves loopKind_of_tier_zero
  cases h with
  | write writes =>
      refine .write fun it hit => ?_
      obtain ⟨y, hy, at_⟩ := writes it hit
      exact ⟨y, hy, at_.keep keeps loopKind_of_fixed kept⟩
  | conditional sends =>
      exact .conditional (sends.keep keeps loopKind_of_fixed kept
        (fun _ _ _ => loopKind_of_tier) fun _ => loopKind_of_tier)

theorem Loops.keep {loop : NodeRef} {emitted : List (NodeRef × List (Stream R))}
    (h : a.Loops M n add loop emitted) (keeps : a.Keeps LoopKind a') :
    a'.Loops M n add loop emitted where
  node := by
    obtain ⟨m, start, hm, kind, args, ms, hms, kinds, info⟩ := h.node
    exact ⟨m, start, keeps.node_eq hm (by rw [kind]; exact loopKind_of_not_appendable rfl), kind,
      args, ms, keeps.node_eq hms (by rw [kinds]; exact loopKind_of_not_appendable rfl), kinds, info⟩
  emits he := (h.emits he).keep keeps

end Arena

/-! ## Evaluation -/

/-- Values that stand for `r` have numbers that `Q` relates to `r`. -/
def Meaning.Evaluates [Scalar F] (M : Meaning F R) (a : Arena F) (inputs : List (Array F))
    (it : Nat) (Q : R → F → Prop) (r : R) : Prop :=
  ∀ v, M.holds a it v r → ∃ x varies,
    Problem.value? ⟨a, inputs⟩ (some it) v = some (x, varies) ∧ Q r x

theorem Meaning.evaluates_numbers [Scalar F] [Elementary R] [Reading F R] {a : Arena F}
    {inputs : List (Array F)} {it : Nat} (r : R) :
    (numbers inputs).Evaluates a inputs it (fun (r : R) x => embed x = r) r :=
  fun _ means => means

namespace Problem

section

/-- A write to the location that a stream has, of a value that `Q` relates to
what the stream has. -/
structure Carries (Q : R → F → Prop) (add : Bool) (w : Write F) (y : Nat × R) : Prop where
  add_eq : w.add = add
  location_eq : w.location = y.1
  value : Q y.2 w.value

variable [Scalar F] {inputs : List (Array F)} {a : Arena F} {Q : R → F → Prop} {it : Nat}

theorem write?_of_writesAt {w : NodeRef} {y : Nat × R} (evaluates : M.Evaluates a inputs it Q y.2)
    (h : a.WritesAt M add w it y) : ∃ m v, a.node w = .ok m ∧ m.kind = .indexedWrite ∧
      write? ⟨a, inputs⟩ it m = some v ∧ Carries Q add v y := by
  obtain ⟨m, v, index, pattern, hm, kind, args, info, means, eval⟩ := h
  obtain ⟨x, varies, hx, value⟩ := evaluates v means
  refine ⟨m, ⟨y.1, add, x⟩, hm, kind, ?_, rfl, rfl, value⟩
  simp only [write?, args, info, List.getElem?_cons_zero, List.getElem?_cons_succ,
    Option.bind_eq_bind, Option.bind_some, hx, eval]
  cases add <;> rfl

theorem guardedWrite?_of_writesAt {r branch w : NodeRef} {y : Nat × R}
    (evaluates : M.Evaluates a inputs it Q y.2) (guards : a.Guards r branch w)
    (h : a.WritesAt M add w it y) :
    ∃ v, guardedWrite? ⟨a, inputs⟩ it r = some v ∧ Carries Q add v y := by
  obtain ⟨mr, hmr, -, args⟩ := guards
  obtain ⟨mw, v, hmw, kind, hv, carries⟩ := write?_of_writesAt evaluates h
  have target : guarded ⟨a, inputs⟩ r = .ok w := by
    rw [guarded, hmr]
    simp only [Bind.bind, Except.bind, args, List.getElem?_cons_succ, List.getElem?_cons_zero,
      present, pure, Except.pure]
  refine ⟨v, ?_, carries⟩
  simp only [guardedWrite?, target, Except.toOption, Option.bind_eq_bind, Option.bind_some, hmw,
    kind, if_true, hv]

/-- The writes of a result at an iteration are what its streams send. -/
theorem writes?_of_emits {r : NodeRef} {fs : List (Stream R)} (h : a.Emits M n add r fs)
    (hit : it < n) (evaluates : ∀ f ∈ fs, ∀ y, f it = some y → M.Evaluates a inputs it Q y.2) :
    ∃ ws, writes? ⟨a, inputs⟩ it r = some ws ∧
      List.Forall₂ (Carries Q add) ws (fs.filterMap fun f => f it) := by
  cases h with
  | @write _ f writes =>
      obtain ⟨y, hy, at_⟩ := writes it hit
      obtain ⟨m, v, hm, kind, hv, carries⟩ :=
        write?_of_writesAt (evaluates f (List.mem_singleton.mpr rfl) y hy) at_
      refine ⟨[v], ?_, ?_⟩
      · simp only [writes?, hm, Except.toOption, Option.bind_eq_bind, Option.bind_some, kind, hv]
        rfl
      · rw [List.filterMap_cons, hy]
        exact .cons carries .nil
  | @conditional sk results fs sends =>
      have chain := collectChain_eq (p := ⟨a, inputs⟩) sends.conditional
      obtain ⟨m, hm, kind, -⟩ := sends.conditional.endIf
      -- the results that are taken, and what they send
      have taken : ∃ l, taken ⟨a, inputs⟩ it (listed sk.branches results) = .ok l ∧
          ∃ ws, l.mapM (guardedWrite? ⟨a, inputs⟩ it) = some ws ∧
            List.Forall₂ (Carries Q add) ws (fs.filterMap fun f => f it) := by
        by_cases free : FreeBefore sk.branches sk.branches.length it
        · refine ⟨[], taken_eq_nil (p := ⟨a, inputs⟩) sends.conditional.toBranches hit free, [],
            rfl, ?_⟩
          rw [List.filterMap_eq_nil_iff.mpr]
          · exact .nil
          · exact fun f hf => sends.nothing hf hit (LoopScope.freeBefore_length.mp free)
        · -- the first branch that has the iteration is taken
          have some_branch : ∃ k : Nat, ∃ b : Branch, sk.branches[k]? = some b ∧
              it ∈ b.iterations := by
            by_contra none
            refine free fun k b _ hb mem => none ⟨k, b, hb, mem⟩
          obtain ⟨b, hb, mem⟩ := Nat.find_spec some_branch
          have first : FreeBefore sk.branches (Nat.find some_branch) it := fun j b' lt hb' mem' =>
            Nat.find_min some_branch lt ⟨b', hb', mem'⟩
          obtain ⟨l, hl⟩ := sends.conditional.getElem?_results hb
          refine ⟨l, taken_eq (p := ⟨a, inputs⟩) sends.conditional.toBranches hb hl hit first mem, ?_⟩
          have sent := sends.sent hb
          rw [List.getD_eq_getElem?_getD, hl, Option.getD_some] at sent
          clear hl sends
          induction sent with
          | nil => exact ⟨[], rfl, .nil⟩
          | cons here _ ih =>
              obtain ⟨ws, hws, all⟩ := ih fun f hf => evaluates f (List.mem_cons_of_mem _ hf)
              obtain ⟨w, guards, writes⟩ := here
              obtain ⟨y, hy, at_⟩ := writes it mem hit
              obtain ⟨v, hv, carries⟩ := guardedWrite?_of_writesAt
                (evaluates _ (List.mem_cons_self ..) y hy) guards at_
              refine ⟨v :: ws, ?_, ?_⟩
              · rw [mapM_eq_some_iff] at hws ⊢
                exact .cons hv hws
              · rw [List.filterMap_cons, hy]
                exact .cons carries all
      obtain ⟨l, hl, ws, hws, all⟩ := taken
      refine ⟨ws, ?_, all⟩
      simp only [writes?, hm, Except.toOption, Option.bind_eq_bind, Option.bind_some, kind, chain,
        hl, hws]

/-- The writes of a loop at an iteration are what its streams send. -/
theorem mapM_writes?_at {emitted : List (NodeRef × List (Stream R))}
    (h : ∀ e ∈ emitted, a.Emits M n add e.1 e.2) (hit : it < n)
    (evaluates : ∀ f ∈ emitted.flatMap Prod.snd, ∀ y, f it = some y →
      M.Evaluates a inputs it Q y.2) :
    ∃ ws, (emitted.map Prod.fst).mapM (writes? ⟨a, inputs⟩ it) = some ws ∧
      List.Forall₂ (Carries Q add) ws.flatten
        ((emitted.flatMap Prod.snd).filterMap fun f => f it) := by
  induction emitted with
  | nil => exact ⟨[], rfl, .nil⟩
  | cons e emitted ih =>
      rw [List.flatMap_cons] at evaluates ⊢
      obtain ⟨ws, hws, all⟩ := ih (fun e he => h e (List.mem_cons_of_mem _ he))
        fun f hf => evaluates f (List.mem_append_right _ hf)
      obtain ⟨w, hw, here⟩ := writes?_of_emits (h e (List.mem_cons_self ..)) hit
        fun f hf => evaluates f (List.mem_append_left _ hf)
      refine ⟨w :: ws, ?_, ?_⟩
      · rw [mapM_eq_some_iff] at hws ⊢
        exact .cons hw hws
      · rw [List.flatten_cons, List.filterMap_append]
        exact List.rel_append here all

end

/-! ## What is accumulated -/

variable [Scalar F] [Elementary R] [Reading F R] {inputs : List (Array F)} {a : Arena F}

/-- The pairs of a location and what is written there. -/
def written (ws : List (Write F)) : List (Nat × R) := ws.map fun w => (w.location, embed w.value)

/-- Writes that each add to what is there, or are the first at their
location. -/
def Settled (ws : List (Write F)) : Prop :=
  ws.Pairwise fun w w' => w'.add = true ∨ w.location ≠ w'.location

/-- Writes of values that are read as what the streams have. -/
theorem written_of_carries {ws : List (Write F)} {ys : List (Nat × R)}
    (h : List.Forall₂ (Carries (fun r x => embed x = r) add) ws ys) :
    (∀ w ∈ ws, w.add = add) ∧ written ws = ys := by
  induction h with
  | nil => exact ⟨by simp, rfl⟩
  | cons carries _ ih =>
      refine ⟨List.forall_mem_cons.mpr ⟨carries.add_eq, ih.1⟩, ?_⟩
      rw [written, List.map_cons]
      exact congrArg₂ _ (Prod.ext carries.location_eq carries.value) ih.2

theorem getD_apply (w : Write F) (acc : Accumulator F) (location : Nat)
    (fresh : w.add = true ∨ acc[w.location]? = none) :
    (embed ((w.apply acc).getD location Scalar.zero) : R) =
      embed (acc.getD location Scalar.zero) + sentTo location (w.location, embed w.value) := by
  rw [Write.apply, TreeMap.getD_insert, sentTo]
  by_cases here : w.location = location
  · subst here
    simp only [Nat.compare_eq_eq, if_true]
    cases hadd : w.add with
    | true => simp only [if_true, Reading.embed_binary, Elementary.binary]
    | false =>
        have none := fresh.resolve_left (by simp [hadd])
        rw [TreeMap.getD_eq_getD_getElem?, none, Option.getD_none, Embeds.embed_zero, zero_add]
        rfl
  · simp only [Nat.compare_eq_eq, here, if_false, add_zero]

/-- What is at a location after some writes. -/
theorem getD_foldl_apply {ws : List (Write F)} (settled : Settled ws) {acc : Accumulator F}
    (fresh : ∀ w ∈ ws, w.add = true ∨ acc[w.location]? = none) (location : Nat) :
    (embed ((ws.foldl Write.apply acc).getD location Scalar.zero) : R) =
      embed (acc.getD location Scalar.zero) + ((written ws).map (sentTo location)).sum := by
  induction ws generalizing acc with
  | nil => simp [written]
  | cons w ws ih =>
      obtain ⟨first, rest⟩ := List.pairwise_cons.mp settled
      have fresh' (w' : Write F) (hw' : w' ∈ ws) :
          w'.add = true ∨ (w.apply acc)[w'.location]? = none := by
        rcases first w' hw' with hadd | ne
        · exact .inl hadd
        · refine (fresh w' (List.mem_cons_of_mem _ hw')).imp_right fun none => ?_
          rw [Write.apply, TreeMap.getElem?_insert, if_neg (by simpa using ne), none]
      rw [List.foldl_cons, ih rest fresh', getD_apply w acc location
        (fresh w (List.mem_cons_self ..)), written, written, List.map_cons, List.map_cons,
        List.sum_cons, add_assoc]

/-- All writes of a loop, by iteration. -/
theorem mapM_writes? {emitted : List (NodeRef × List (Stream R))}
    (h : ∀ e ∈ emitted, a.Emits (.numbers inputs) n add e.1 e.2) {its : List Nat}
    (below : ∀ it ∈ its, it < n) :
    ∃ ws, (its.mapM fun it => (emitted.map Prod.fst).mapM (writes? ⟨a, inputs⟩ it)) = some ws ∧
      (∀ w ∈ ws.flatten.flatten, w.add = add) ∧
      written ws.flatten.flatten =
        its.flatMap fun it => (emitted.flatMap Prod.snd).filterMap fun f => f it := by
  have once {it : Nat} (hit : it < n) : ∃ ws,
      (emitted.map Prod.fst).mapM (writes? ⟨a, inputs⟩ it) = some ws ∧
      (∀ w ∈ ws.flatten, w.add = add) ∧
      written ws.flatten = (emitted.flatMap Prod.snd).filterMap fun f => f it := by
    obtain ⟨ws, hws, all⟩ := mapM_writes?_at h hit fun _ _ y _ =>
      Meaning.evaluates_numbers y.2
    exact ⟨ws, hws, written_of_carries all⟩
  induction its with
  | nil => exact ⟨[], rfl, by simp, rfl⟩
  | cons it its ih =>
      obtain ⟨ws, hws, hadd, eq⟩ := ih fun it hit => below it (List.mem_cons_of_mem _ hit)
      obtain ⟨w, hw, hadd', eq'⟩ := once (below it (List.mem_cons_self ..))
      refine ⟨w :: ws, ?_, ?_, ?_⟩
      · rw [mapM_eq_some_iff] at hws ⊢
        exact .cons hw hws
      · intro v hv
        rw [List.flatten_cons, List.flatten_append] at hv
        rcases List.mem_append.mp hv with hv | hv
        · exact hadd' v hv
        · exact hadd v hv
      · rw [List.flatten_cons, List.flatten_append, written, List.map_append, List.flatMap_cons]
        exact congrArg₂ _ eq' eq

/-- A loop accumulates what its streams send. -/
theorem accumulator_eq {loop : NodeRef} {emitted : List (NodeRef × List (Stream R))}
    (h : a.Loops (.numbers inputs) n add loop emitted)
    (settled : Settles add n (emitted.flatMap Prod.snd)) :
    ∃ acc, accumulator? ⟨a, inputs⟩ loop = some acc ∧ ∀ location,
      (embed (acc.getD location Scalar.zero) : R) = sent n (emitted.flatMap Prod.snd) location := by
  obtain ⟨m, start, hm, -, args, ms, hms, -, info⟩ := h.node
  obtain ⟨ws, hws, hadd, eq⟩ := mapM_writes? (fun e he => h.emits he)
    fun it (hit : it ∈ List.range n) => List.mem_range.mp hit
  refine ⟨ws.flatten.flatten.foldl Write.apply ∅, ?_, fun location => ?_⟩
  · have tail : m.args.tail.filterMap Value.node? = emitted.map Prod.fst := by
      rw [args, List.tail_cons, List.filterMap_map]
      exact congrFun List.filterMap_eq_map _
    have first : m.args[0]? = some (.node start) := by
      rw [args]
      rfl
    simp only [accumulator?, hm, Except.toOption, Option.bind_eq_bind, Option.bind_some, first,
      Value.node?, iterations?, hms, info, tail, hws]
  · have pairwise : Settled ws.flatten.flatten := by
      rcases settled with hadd' | nodup
      · exact List.pairwise_iff_forall_sublist.mpr fun {w w'} sub =>
          .inl ((hadd w' (sub.subset (by simp))).trans hadd')
      · have locations : (ws.flatten.flatten.map Write.location).Nodup := by
          have eq' := congrArg (List.map Prod.fst) eq
          rw [written, List.map_map, List.map_flatMap] at eq'
          refine (congrArg List.Nodup (eq'.trans ?_)).mpr nodup
          refine congrArg (List.flatMap · _) (funext fun it => ?_)
          rw [List.map_filterMap]
        exact (List.pairwise_map.mp locations).imp .inr
    rw [getD_foldl_apply pairwise (fun w _ => .inr rfl), TreeMap.getD_emptyc, Embeds.embed_zero,
      zero_add, eq, sum_map_flatMap]
    rfl

end Problem

end LoopDiff
