import LoopDiff.Proofs.Library.Recompile
import LoopDiff.Proofs.Library.Total
import LoopDiff.Proofs.Model.Validation

/-!
# LoopDiff.Proofs.Library.Isolation

Models of different names in one library.

No label follows an underscore at the end of another label, so the name of a
symbol determines both the model and the role (`eq_of_symbolName_eq`), even
if the name of the model has underscores or ends in a label.  A compilation
therefore leaves alone the symbols of models of other names, whether it
succeeds or not, and what a library has of a model only depends on the
compilations of models of that name (`Library.agrees_compiling`).  The same
holds of libraries that are merged, so models of distinct names that are
compiled together are loaded as if each was alone
(`Model.agrees_of_compileAll`).
-/

namespace LoopDiff

variable {σ F : Type}

/-! ## Names -/

/-- No label ends in an underscore and another label. -/
theorem Role.eq_of_suffix {r r' : Role}
    (h : '_' :: r.label.toList <:+ '_' :: r'.label.toList) : r = r' := by
  revert r r'
  intro r r'
  cases r <;> cases r' <;> decide

theorem toList_symbolName (model : String) (r : Role) :
    (symbolName model r).toList = model.toList ++ '_' :: r.label.toList := by
  simp [symbolName]

/-- The name of a symbol has the name of its model. -/
theorem eq_of_symbolName_eq {model model' : String} {r r' : Role}
    (h : symbolName model r = symbolName model' r') : model = model' := by
  have eq : model.toList ++ '_' :: r.label.toList = model'.toList ++ '_' :: r'.label.toList := by
    rw [← toList_symbolName, h, toList_symbolName]
  -- Both labels end the same name, so the shorter one ends the longer one.
  have role : r = r' := by
    have first := List.suffix_append model.toList ('_' :: r.label.toList)
    have second := List.suffix_append model'.toList ('_' :: r'.label.toList)
    rw [← eq] at second
    rcases List.suffix_or_suffix_of_suffix first second with h | h
    · exact Role.eq_of_suffix h
    · exact (Role.eq_of_suffix h).symm
  subst role
  exact String.toList_inj.mp (List.append_cancel_right eq)

theorem symbolName_ne {model model' : String} (ne : model ≠ model') (r r' : Role) :
    symbolName model r ≠ symbolName model' r' :=
  fun eq => ne (eq_of_symbolName_eq eq)

/-! ## What a library has of a model -/

namespace Library

/-- Two libraries have the same of the model `name`: all symbols, and what is
loaded, a model or an error. -/
structure Agrees [Scalar F] (lib lib' : Library σ F) (name : String) : Prop where
  symbol (r : Role) : lib[symbolName name r]? = lib'[symbolName name r]?
  model : lib.model name = lib'.model name

/-- The library after some compilations into it.  One that fails leaves what
it had bound. -/
def compiling [Scalar F] (lib : Library σ F) (calls : List (Model F × CompileOptions)) :
    Library σ F :=
  calls.foldl (fun lib (m, options) => ((m.compileInto options).run.run lib).2) lib

section

variable [Scalar F] {lib lib' lib'' : Library σ F} {name : String}

theorem agrees_of_symbols (h : ∀ r, lib[symbolName name r]? = lib'[symbolName name r]?) :
    lib.Agrees lib' name :=
  ⟨h, Model.model_eq_of_symbols h⟩

theorem Agrees.refl (lib : Library σ F) (name : String) : lib.Agrees lib name :=
  agrees_of_symbols fun _ => rfl

theorem Agrees.trans (h : lib.Agrees lib' name) (h' : lib'.Agrees lib'' name) :
    lib.Agrees lib'' name :=
  agrees_of_symbols fun r => (h.symbol r).trans (h'.symbol r)

variable (m : Model F) (options : CompileOptions)

/-- A compilation leaves alone the models of other names. -/
theorem agrees_compileInto_of_ne (lib : Library σ F) (ne : m.name ≠ name) :
    Agrees ((m.compileInto options).run.run lib).2 lib name := by
  obtain ⟨result, fresh, lib', -, run, overlays, -⟩ := m.compileInto_overlays options lib
  rw [run]
  exact agrees_of_symbols fun r => overlays.other fun r' => symbolName_ne ne.symm r r'

/-- What a compilation makes of a model depends on what there was of it. -/
theorem Agrees.compileInto (h : lib.Agrees lib' m.name) :
    Agrees ((m.compileInto options).run.run lib).2 ((m.compileInto options).run.run lib').2
      m.name := by
  obtain ⟨result, fresh, after, first, run, overlays, -⟩ := m.compileInto_overlays options lib
  obtain ⟨result', fresh', after', first', run', overlays', -⟩ :=
    m.compileInto_overlays options lib'
  cases first.symm.trans first'
  rw [run, run']
  exact agrees_of_symbols fun r => by rw [overlays.role, overlays'.role, h.symbol]

/-- What a library has of a model only depends on the compilations of models
of its name. -/
theorem Agrees.compiling (h : lib.Agrees lib' name) (calls : List (Model F × CompileOptions)) :
    Agrees (lib.compiling calls) (lib'.compiling (calls.filter fun call => call.1.name = name))
      name := by
  induction calls generalizing lib lib' with
  | nil => exact h
  | cons call calls ih =>
      obtain ⟨m, options⟩ := call
      rw [Library.compiling, List.foldl_cons]
      by_cases eq : m.name = name
      · subst eq
        rw [List.filter_cons_of_pos (by simp), Library.compiling, List.foldl_cons]
        exact ih (h.compileInto m options)
      · rw [List.filter_cons_of_neg (by simpa using eq)]
        exact ih ((agrees_compileInto_of_ne m options lib eq).trans h)

end

/-! ## Merging -/

theorem foldl_insert_eq_insertMany (es : List (String × Symbol σ F)) (lib : Library σ F) :
    es.foldl (fun lib e => lib.insert e.1 e.2) lib = lib.insertMany es := by
  induction es generalizing lib with
  | nil => rw [Std.TreeMap.insertMany_nil, List.foldl_nil]
  | cons e es ih => rw [List.foldl_cons, ih, Std.TreeMap.insertMany_cons]

/-- What is merged into a library wins. -/
theorem getElem?_merge (lib other : Library σ F) (key : String) :
    (lib.merge other)[key]? = other[key]?.or lib[key]? := by
  rw [merge, Std.TreeMap.foldl_eq_foldl_toList, foldl_insert_eq_insertMany]
  cases found : other[key]? with
  | some s =>
      rw [Option.some_or]
      exact Std.TreeMap.getElem?_insertMany_list_of_mem Std.ReflCmp.compare_self
        Std.TreeMap.distinct_keys_toList (Std.TreeMap.mem_toList_iff_getElem?_eq_some.mpr found)
  | none =>
      rw [Option.none_or]
      refine Std.TreeMap.getElem?_insertMany_list_of_contains_eq_false ?_
      rw [Bool.eq_false_iff, ne_eq, List.contains_iff_mem, List.mem_map]
      rintro ⟨⟨_, s⟩, mem, rfl⟩
      cases found.symm.trans (Std.TreeMap.mem_toList_iff_getElem?_eq_some.mp mem)

end Library

namespace Model

open Library

variable [Scalar F] {models : List (Model F)} {libs : List (Library σ F)}
  {options : CompileOptions}

/-- A library of a model has nothing of other models. -/
theorem getElem?_compile_of_ne {m : Model F} {own : Library σ F} {name : String}
    (compiled : m.compile options = .ok own) (ne : m.name ≠ name) (r : Role) :
    own[symbolName name r]? = none := by
  have agrees := (agrees_compileInto_of_ne (σ := σ) m options ∅ ne).symbol r
  rw [compile] at compiled
  split at compiled
  case h_1 run =>
      cases compiled
      rwa [run, Std.TreeMap.getElem?_emptyc] at agrees
  case h_2 => cases compiled

theorem agrees_foldl_merge_of_ne {name : String}
    (compiled : List.Forall₂ (fun m own => m.compile options = .ok own) models libs)
    (ne : ∀ m ∈ models, m.name ≠ name) (start : Library σ F) :
    (libs.foldl merge start).Agrees start name := by
  induction compiled generalizing start with
  | nil => exact .refl start name
  | @cons m own models libs here _ ih =>
      rw [List.foldl_cons]
      refine (ih (fun m hm => ne m (List.mem_cons_of_mem _ hm)) _).trans
        (agrees_of_symbols fun r => ?_)
      rw [getElem?_merge, getElem?_compile_of_ne here (ne m (List.mem_cons_self ..)),
        Option.none_or]

/-- Merging keeps models of distinct names as they are. -/
theorem agrees_foldl_merge
    (compiled : List.Forall₂ (fun m own => m.compile options = .ok own) models libs)
    (distinct : (models.map name).Nodup) {start : Library σ F}
    (free : ∀ m ∈ models, ∀ r, start[symbolName m.name r]? = none) {m : Model F}
    (hm : m ∈ models) :
    ∃ own, m.compile options = .ok own ∧ (libs.foldl merge start).Agrees own m.name := by
  induction compiled generalizing start with
  | nil => cases hm
  | @cons m' own models libs here rest ih =>
      rw [List.map_cons, List.nodup_cons] at distinct
      have apart {m : Model F} (hm : m ∈ models) : m'.name ≠ m.name :=
        fun eq => distinct.1 (eq ▸ List.mem_map_of_mem hm)
      rw [List.foldl_cons]
      rcases List.mem_cons.mp hm with rfl | hm
      · refine ⟨own, here, (agrees_foldl_merge_of_ne rest (fun _ h => (apart h).symm) _).trans
          (agrees_of_symbols fun r => ?_)⟩
        rw [getElem?_merge, free m (List.mem_cons_self ..), Option.or_none]
      · refine ih distinct.2 (fun m hm r => ?_) hm
        rw [getElem?_merge, getElem?_compile_of_ne here (apart hm), Option.none_or]
        exact free m (List.mem_cons_of_mem _ hm) r

theorem forall₂_of_compileAll {lib : Library σ F} (h : compileAll models options = .ok lib) :
    ∃ libs, List.Forall₂ (fun m own => m.compile options = .ok own) models libs ∧
      lib = libs.foldl merge ∅ := by
  obtain ⟨libs, mapped, merged⟩ := bind_eq_ok h
  cases merged
  exact ⟨libs, forall₂_of_mapM mapped, rfl⟩

/-- Models of different names do not interfere in a library.  Their symbols
have different names.  After any compilations, a library has the same of a
name, and loads the same, as after those of models of that name alone.
Models of distinct names that are compiled together are loaded as each is
from a library of its own. -/
theorem isolated :
    (∀ name name' : String, name ≠ name' → ∀ r r' : Role, symbolName name r ≠ symbolName name' r') ∧
    (∀ (lib : Library σ F) (calls : List (Model F × CompileOptions)) (name : String),
      (lib.compiling calls).Agrees (lib.compiling (calls.filter fun call => call.1.name = name))
        name) ∧
    ∀ (models : List (Model F)) (options : CompileOptions) (lib : Library σ F),
      (models.map name).Nodup → compileAll models options = .ok lib → ∀ m ∈ models,
        ∃ own, m.compile options = .ok own ∧ lib.Agrees own m.name := by
  refine ⟨fun _ _ => symbolName_ne, fun lib calls name => (Agrees.refl lib name).compiling calls,
    fun models options lib distinct compiled m hm => ?_⟩
  obtain ⟨libs, each, rfl⟩ := forall₂_of_compileAll compiled
  exact agrees_foldl_merge each distinct (fun m _ r => Std.TreeMap.getElem?_emptyc) hm

/-- Two models with the same parts, where the one name is a part of the names
of symbols of the other. -/
theorem isolated_products : ∃ lib : Library Unit ℚ,
    compileAll [products ℚ, { products ℚ with name := "products_sparse" }] {} = .ok lib ∧
      ∃ own, (products ℚ).compile {} = .ok own ∧ lib.Agrees own "products" := by
  obtain ⟨first, loaded, compiled, -⟩ :=
    accepted_products.compile_total (σ := Unit) (exponents_products ℚ _) small_products nofun nofun
  have accepted := (accepted_products (F := ℚ)).rename "products_sparse"
  have small : Small { products ℚ with name := "products_sparse" } {} :=
    accepted.small (by decide) (by decide) (fun _ => small_products.iterations) (by decide)
      (by decide) nofun nofun
  obtain ⟨second, loaded', compiled', -⟩ :=
    accepted.compile_total (σ := Unit) (exponents_products ℚ _) small nofun nofun
  have all : compileAll [products ℚ, { products ℚ with name := "products_sparse" }] {} =
      .ok ([first, second].foldl merge ∅) := by
    simp only [compileAll, List.mapM_cons, compiled, compiled']
    rfl
  obtain ⟨-, -, together⟩ := isolated (σ := Unit) (F := ℚ)
  exact ⟨_, all, together _ _ _ (by decide) all _ (List.mem_cons_self ..)⟩

end Model

end LoopDiff
