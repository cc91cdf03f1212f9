/-
How arguments are given to parameters. Positional arguments and keywords are used up one after the
other; `givenType` tells the type of each parameter from the call as it was made. The two agree
since the names of the parameters differ.
-/
import TypeInfer.Proofs.Apply

namespace TypeInfer

open List

variable {lib : Library} {spread : Bool} {key name : String} {keywords : List (String × Ty)}
  {params : List Param} (default? : Option Ty)

/-- The type that a parameter gets: from its place, its keyword or its default. `before` are the parameters
before it. -/
def givenType (lib : Library) (spread : Bool) (places : List Ty) (keywords : List (String × Ty)) (before : List Param)
    (default? : Option Ty) (p : Param) : Ty :=
  let byName := (keywords.lookup p.name.name).getD (if spread then .unknown else default?.getD .unknown)
  match p.kind with
  | .positional => places[before.countP (·.kind = .positional)]?.getD byName
  | .keywordOnly => byName
  | .varArgs => .inst lib.tuple
  | .kwArgs => .inst lib.dict

/-! ### Keywords -/

theorem lookup_takeKey (key : String) (keywords : List (String × Ty)) :
    keywords.lookup key = (takeKey key keywords).map Prod.fst := by
  induction keywords with
  | nil => rfl
  | cons e keywords ih =>
    obtain ⟨k, ty⟩ := e
    by_cases hk : k = key
    · simp [takeKey, hk]
    · simp [takeKey, hk, lookup_cons, beq_false_of_ne (Ne.symm hk), ih, Function.comp_def]

theorem lookup_of_takeKey {ty rest} (h : takeKey key keywords = some (ty, rest))
    (hname : name ≠ key) : rest.lookup name = keywords.lookup name := by
  induction keywords generalizing rest with
  | nil => contradiction
  | cons e keywords ih =>
    obtain ⟨k, a⟩ := e
    rw [takeKey] at h
    split at h
    · rename_i hk
      obtain ⟨rfl, rfl⟩ := Prod.mk.inj (Option.some.inj h)
      rw [eq_of_beq hk, lookup_cons, beq_false_of_ne hname]
    · obtain ⟨⟨b, left⟩, htake, he⟩ := Option.map_eq_some_iff.1 h
      obtain ⟨rfl, rfl⟩ := Prod.mk.inj he
      rw [lookup_cons, lookup_cons, ih htake]

theorem takeKeyword_fst : (takeKeyword spread key default? keywords).1 =
    (keywords.lookup key).getD (if spread then .unknown else default?.getD .unknown) := by
  rw [lookup_takeKey, takeKeyword]
  cases takeKey key keywords <;> rfl

theorem lookup_takeKeyword (hname : name ≠ key) :
    (takeKeyword spread key default? keywords).2.lookup name = keywords.lookup name := by
  rw [takeKeyword]
  cases htake : takeKey key keywords with
  | none => rfl
  | some found => exact lookup_of_takeKey htake hname

theorem lookup_eq_of_perm {keywords'} (h : keywords.Perm keywords')
    (hkeys : (keywords.map Prod.fst).Nodup) (key : String) :
    keywords.lookup key = keywords'.lookup key := by
  induction h with
  | nil => rfl
  | cons e _ ih => rw [lookup_cons, lookup_cons, ih (nodup_cons.1 hkeys).2]
  | swap e e' l =>
    have hne : e'.1 ≠ e.1 := fun heq => (nodup_cons.1 hkeys).1 (heq ▸ mem_cons_self ..)
    by_cases he : key = e.1
    · rw [he, lookup_cons, lookup_cons_self, beq_false_of_ne hne.symm, lookup_cons_self]
    · rw [lookup_cons, lookup_cons, lookup_cons, lookup_cons, beq_false_of_ne he]
  | trans h _ ih ih' => exact (ih hkeys).trans (ih' ((h.map _).nodup hkeys))

/-! ### Parameters -/

/-- No positional parameter comes after the one for the positional arguments that are left. -/
def StarLast (params : List Param) : Prop :=
  params.Pairwise fun p q => p.kind = .varArgs → q.kind ≠ .positional

theorem takeParam_spec (p : Param) (default? : Option Ty) (places : List Ty) :
    let taken := takeParam lib spread p default? places keywords
    taken.1 = givenType lib spread places keywords [] default? p ∧
      (∀ name ≠ p.name.name, taken.2.2.lookup name = keywords.lookup name) ∧
      (p.kind ≠ .varArgs → ∀ before : List Param,
        taken.2.1[before.countP (·.kind = .positional)]? = places[(p :: before).countP (·.kind = .positional)]?) := by
  unfold takeParam givenType
  cases hkind : p.kind with
  | positional =>
    cases places with
    | nil => exact ⟨takeKeyword_fst _, fun _ hne => lookup_takeKeyword _ hne, by simp⟩
    | cons ty places => simp [hkind]
  | keywordOnly => exact ⟨takeKeyword_fst _, fun _ hne => lookup_takeKeyword _ hne, by simp [hkind]⟩
  | varArgs => simp
  | kwArgs => simp [hkind]

theorem getElem?_bindParams (hlast : StarLast params) (hnames : (params.map (·.name.name)).Nodup)
    (defaults : List (Option Ty)) (places : List Ty) {i p} (hp : params[i]? = some p) :
    (bindParams lib spread params defaults places keywords)[i]? =
      some (givenType lib spread places keywords (params.take i) defaults[i]?.join p) := by
  induction params generalizing i defaults places keywords with
  | nil => simp at hp
  | cons first params ih =>
    obtain ⟨hfirst, hlast⟩ := pairwise_cons.1 hlast
    obtain ⟨hfresh, hnames⟩ := nodup_cons.1 hnames
    obtain ⟨hty, hlookup, hplaces⟩ :=
      @takeParam_spec lib spread keywords first (defaults.head?.getD none) places
    rw [bindParams]
    cases i with
    | zero =>
      obtain rfl : first = p := Option.some.inj hp
      cases defaults <;> exact congrArg some hty
    | succ i =>
      have hmem : p ∈ params := mem_of_getElem? hp
      have hne : p.name.name ≠ first.name.name := fun heq => hfresh (mem_map.2 ⟨p, hmem, heq⟩)
      have hdefault : defaults.tail[i]? = defaults[i + 1]? := getElem?_tail
      rw [getElem?_cons_succ, ih hlast hnames _ _ hp, hdefault, take_succ_cons]
      simp only [givenType, hlookup _ hne]
      cases hkind : p.kind with
      | positional =>
        have hvar : first.kind ≠ .varArgs := fun hvar => hfirst p hmem hvar hkind
        simp only [hplaces hvar]
      | _ => rfl

/-! ### Parameters as they are read -/

namespace Grammar

/-- After a star no parameter is positional. -/
theorem kind_ne_of_mem_paramsOf {items} : ∀ p ∈ paramsOf true items, p.kind ≠ .positional := by
  induction items with
  | nil => exact forall_mem_nil _
  | cons item items ih =>
    cases item with
    | slash => exact ih
    | star => exact ih
    | param p =>
      cases hkind : p.kind <;> simp only [paramsOf, hkind, if_true] <;>
        exact forall_mem_cons.2 ⟨by simp [hkind], ih⟩

theorem starLast_paramsOf (keywordOnly : Bool) (items : List ParamItem) : StarLast (paramsOf keywordOnly items) := by
  induction items generalizing keywordOnly with
  | nil => exact .nil
  | cons item items ih =>
    cases item with
    | slash => exact ih keywordOnly
    | star => exact ih true
    | param p =>
      cases hkind : p.kind with
      | varArgs =>
        simp only [paramsOf, hkind]
        exact pairwise_cons.2 ⟨fun q hq _ => kind_ne_of_mem_paramsOf q hq, ih true⟩
      | _ =>
        simp only [paramsOf, hkind]
        refine pairwise_cons.2 ⟨fun q _ hvar => ?_, ih keywordOnly⟩
        cases keywordOnly <;> simp [hkind] at hvar

theorem starLast_of_params {r close annotations c c'}
    (h : Grammar.params r close annotations c = .ok params c') : StarLast params := by
  simp only [Grammar.params, bind, EStateM.bind] at h
  split at h
  · obtain ⟨rfl, -⟩ := EStateM.Result.ok.inj h
    exact starLast_paramsOf false _
  · contradiction

end Grammar

/-! ### The types of the parameters -/

/-- Parameters are given by place, by keyword or from the default, with keywords in any order. -/
theorem arguments_follow_call_rules {r : Grammar.Rules} {close : TokenKind} {annotations : Bool}
    {c c' : Grammar.Cursor} {params : List Param} (hread : Grammar.params r close annotations c = .ok params c')
    (hnames : (params.map (·.name.name)).Nodup) (lib : Library) (defaults : List (Option Ty)) (receiver : Option Ty)
    (args : CallArgs) (hkeys : (args.keywords.map Prod.fst).Nodup) :
    (args.signature lib params defaults receiver).length = params.length ∧
      (∀ i p, params[i]? = some p → (args.signature lib params defaults receiver)[i]? =
        some (givenType lib args.spread (receiver.toList ++ args.positional) args.keywords (params.take i)
          defaults[i]?.join p)) ∧
      ∀ keywords, args.keywords.Perm keywords →
        { args with keywords }.signature lib params defaults receiver = args.signature lib params defaults receiver := by
  have hlast := Grammar.starLast_of_params hread
  refine ⟨length_bindParams .., fun i p hp => getElem?_bindParams hlast hnames _ _ hp, fun keywords hperm => ?_⟩
  refine List.ext_getElem? fun i => ?_
  cases hp : params[i]? with
  | none =>
    have hlength := List.getElem?_eq_none_iff.1 hp
    rw [List.getElem?_eq_none, List.getElem?_eq_none] <;> rwa [CallArgs.signature, length_bindParams]
  | some p =>
    rw [CallArgs.signature, CallArgs.signature, getElem?_bindParams hlast hnames _ _ hp,
      getElem?_bindParams hlast hnames _ _ hp]
    simp only [givenType, lookup_eq_of_perm hperm hkeys]

/-- The tokens of `a, *rest, b)`. -/
def starredParams : Grammar.Cursor where
  rest := [.ident "a", .symbol .comma, .symbol .star, .ident "rest", .symbol .comma, .ident "b",
    .symbol .rightParen].map (⟨·, default⟩)
  last := default
  stop := default

theorem arguments_follow_call_rules_starredParams : ∃ params c',
    Grammar.params (Grammar.rules 3) (.symbol .rightParen) true starredParams = .ok params c' ∧
      (params.map (·.name.name)).Nodup ∧
      ((CallArgs.mk [.prim .int] [("b", .prim .str)] false).signature default params [] none)[2]? =
        some (.prim .str) := by
  have hread : ∃ c', Grammar.params (Grammar.rules 3) (.symbol .rightParen) true starredParams =
      .ok [⟨⟨"a", default⟩, .positional, none, none⟩, ⟨⟨"rest", default⟩, .varArgs, none, none⟩,
        ⟨⟨"b", default⟩, .keywordOnly, none, none⟩] c' := ⟨_, rfl⟩
  obtain ⟨c', hread⟩ := hread
  have hnames : ["a", "rest", "b"].Nodup := by decide
  obtain ⟨-, hgiven, -⟩ := arguments_follow_call_rules hread hnames default [] none
    ⟨[.prim .int], [("b", .prim .str)], false⟩ (by decide)
  exact ⟨_, c', hread, hnames, hgiven 2 _ rfl⟩

end TypeInfer
