/-
What is left of a path that is resolved. Read from the last step back, a `..` waits for the name
before it (`settle`). Resolving keeps the names that are left, but each climb above the start takes
back the one before it, so one `..` is left of an odd number of climbs and none of an even one.
-/
import Mathlib.Data.List.Induction
import TypeInfer.Proofs.Paths

namespace TypeInfer.Path

open List

variable {p q : Path} {steps start : List Component}

/-- One step before those that are settled: a name meets the first `..` that waits for it. -/
def settleStep : Component → Nat × List String → Nat × List String
  | .up, (climbs, names) => (climbs + 1, names)
  | .name n, (0, names) => (0, n :: names)
  | .name _, (climbs + 1, names) => (climbs, names)
  | _, settled => settled

/-- The climbs above the start, and the names that are left after them. -/
def settle (steps : List Component) : Nat × List String := steps.foldr settleStep (0, [])

theorem settle_cons (c : Component) (steps : List Component) : settle (c :: steps) = settleStep c (settle steps) := rfl

/-- One more step at the end. -/
theorem settle_concat {c} (f : Nat × List String → Nat × List String) (hc : settleStep c (0, []) = f (0, []))
    (hf : ∀ d s, settleStep d (f s) = f (settleStep d s)) : settle (steps ++ [c]) = f (settle steps) := by
  show (steps ++ [c]).foldr settleStep (0, []) = _
  rw [foldr_append, foldr_cons, foldr_nil, hc]
  exact foldr_hom f hf

theorem settle_here (steps : List Component) : settle (steps ++ [.here]) = settle steps :=
  settle_concat id rfl fun _ _ => rfl

theorem settle_name (steps : List Component) (n : String) :
    settle (steps ++ [.name n]) = ((settle steps).1, (settle steps).2 ++ [n]) := by
  refine settle_concat (fun s => (s.1, s.2 ++ [n])) rfl ?_
  rintro c ⟨_ | k, names⟩ <;> cases c <;> rfl

theorem settle_up (steps : List Component) : settle (steps ++ [.up]) =
    if (settle steps).2.isEmpty then ((settle steps).1 + 1, []) else ((settle steps).1, (settle steps).2.dropLast) := by
  refine settle_concat (fun s => if s.2.isEmpty then (s.1 + 1, []) else (s.1, s.2.dropLast)) rfl ?_
  rintro c ⟨_ | k, _ | ⟨m, names⟩⟩ <;> cases c <;> rfl

theorem settle_replicate (k : Nat) (names : List String) : settle (replicate k .up ++ names.map .name) = (k, names) := by
  have hnames : settle (names.map .name) = (0, names) := by
    induction names with
    | nil => rfl
    | cons n names ih => exact congrArg (settleStep (.name n)) ih
  induction k with
  | zero => exact hnames
  | succ k ih => exact congrArg (settleStep .up) ih

theorem map_settle_sublist (steps : List Component) : (settle steps).2.map .name <+ steps := by
  induction steps with
  | nil => exact .slnil
  | cons c steps ih =>
    rw [settle_cons]
    rcases hsettle : settle steps with ⟨_ | k, names⟩ <;> rw [hsettle] at ih
    · cases c with
      | name n => exact ih.cons_cons _
      | _ => exact ih.cons _
    · cases c <;> exact ih.cons _

/-- What resolving keeps of what is settled. -/
def kept (settled : Nat × List String) : List Component := replicate (settled.1 % 2) .up ++ settled.2.map .name

/-! ### The steps of a path -/

/-- A step that its text stands for as a segment. -/
def Written (c : Component) : Prop := '/' ∉ c.text.toList ∧ step? c.text = some c

theorem not_written_root : ¬Written .root := fun h => absurd h.1 (by decide)

theorem written_of_step? {segment c} (hsegment : segment ∈ p.segments) (hstep : step? segment = some c) : Written c := by
  rcases step?_cases hstep with rfl | ⟨rfl, -⟩
  · exact ⟨by decide, by decide⟩
  · obtain ⟨piece, hpiece, rfl⟩ := mem_map.1 hsegment
    exact ⟨by simpa [Component.text] using Text.not_mem_of_mem_splitOn hpiece, hstep⟩

/-- Where a path starts. -/
def base (p : Path) : List Component := if p.isAbsolute then [.root] else []

theorem base_cases (p : Path) : p.base = [] ∨ p.base = [.root] := by
  rw [base]
  cases p.isAbsolute <;> simp

theorem exists_steps (p : Path) : ∃ steps, p.components = p.base ++ steps ∧ ∀ c ∈ steps, c = .here ∨ Written c := by
  obtain ⟨first, inner, hs⟩ := exists_cons_of_ne_nil (segments_ne_nil p)
  have hinner : ∀ c ∈ inner.filterMap step?, c = .here ∨ Written c := fun c hc => by
    obtain ⟨segment, hmem, hstep⟩ := mem_filterMap.1 hc
    exact .inr (written_of_step? (hs ▸ mem_cons_of_mem _ hmem) hstep)
  rw [components_of_segments hs, base]
  cases habs : p.isAbsolute with
  | true =>
    obtain ⟨inner', hs'⟩ := segments_of_isAbsolute habs
    obtain ⟨rfl, -⟩ := List.cons.inj (hs.symm.trans hs')
    exact ⟨_, rfl, hinner⟩
  | false =>
    refine ⟨_, rfl, fun c hc => (mem_append.1 hc).elim (fun hc => ?_) (hinner c)⟩
    rw [startOf] at hc
    split at hc
    · simp at hc
    · split at hc
      · exact .inl (mem_singleton.1 hc)
      · exact .inr (written_of_step? (hs ▸ mem_cons_self) (Option.mem_toList.1 hc))

theorem foldl_resolveStep (hstart : start = [] ∨ start = [.root]) (h : ∀ c ∈ steps, c = .here ∨ Written c) :
    steps.foldl resolveStep start = (kept (settle steps)).reverse ++ start := by
  induction steps using List.reverseRecOn with
  | nil => rfl
  | append_singleton steps c ih =>
    rw [foldl_append, foldl_cons, foldl_nil, ih fun d hd => h d (mem_append_left _ hd)]
    cases c with
    | root => simpa [not_written_root] using h .root
    | here =>
      rw [settle_here]
      cases (kept (settle steps)).reverse ++ start <;> rfl
    | name n =>
      rw [resolveStep_name, settle_name]
      simp [kept]
    | up =>
      rw [settle_up]
      obtain ⟨k, names⟩ := settle steps
      cases names using List.reverseRecOn with
      | append_singleton names n => simp [kept, resolveStep]
      | nil =>
        rcases Nat.mod_two_eq_zero_or_one k with h | h <;> rcases hstart with rfl | rfl <;>
          simp [kept, h, Nat.add_mod, resolveStep]

/-- How often a path climbs above its start. -/
def climbs (p : Path) : Nat := (settle p.components).1

/-- The names of a path that no `..` takes back. -/
def names (p : Path) : List String := (settle p.components).2

theorem foldl_base (p : Path) (h : ∀ c ∈ steps, c = .here ∨ Written c) :
    (p.base ++ steps).foldl resolveStep [] = (p.base ++ kept (settle (p.base ++ steps))).reverse := by
  rcases p.base_cases with hbase | hbase <;> rw [hbase]
  · simp [foldl_resolveStep (.inl rfl) h]
  · simpa [resolveStep, settle, settleStep] using foldl_resolveStep (.inr rfl) h

theorem steps_eq (p : Path) : p.steps = p.base ++ kept (settle p.components) := by
  obtain ⟨steps, hcomponents, hsteps⟩ := p.exists_steps
  rw [Path.steps, hcomponents, p.foldl_base hsteps, reverse_reverse]

theorem written_kept (p : Path) : ∀ c ∈ kept (settle p.components), Written c := by
  intro c hc
  rcases mem_append.1 hc with hc | hc
  · rw [eq_of_mem_replicate hc]
    exact ⟨by decide, by decide⟩
  · obtain ⟨n, -, rfl⟩ := mem_map.1 hc
    obtain ⟨steps, hcomponents, hsteps⟩ := p.exists_steps
    have hmem : .name n ∈ p.base ++ steps := hcomponents ▸ (map_settle_sublist _).mem hc
    have hbase : .name n ∉ p.base := by rcases p.base_cases with h | h <;> simp [h]
    exact (hsteps _ ((mem_append.1 hmem).resolve_left hbase)).resolve_left (by simp)

/-! ### Steps are read as they are written -/

theorem segments_join {c} (h : ∀ d ∈ c :: steps, Written d) :
    segments ⟨Text.join "/" ((c :: steps).map Component.text)⟩ = (c :: steps).map Component.text := by
  induction steps generalizing c with
  | nil => exact segments_of_not_mem (h c mem_cons_self).1
  | cons d steps ih =>
    have hjoin : Text.join "/" ((c :: d :: steps).map Component.text) =
        c.text ++ "/" ++ Text.join "/" ((d :: steps).map Component.text) := by
      simp [Text.join, String.intercalate_cons_of_ne_nil]
    rw [hjoin, segments_slash, segments_of_not_mem (h c mem_cons_self).1, ih fun x hx => h x (mem_cons_of_mem c hx)]
    rfl

theorem filterMap_step? (h : ∀ c ∈ steps, Written c) : (steps.map Component.text).filterMap step? = steps := by
  induction steps with
  | nil => rfl
  | cons c steps ih => rw [map_cons, filterMap_cons, (h c mem_cons_self).2, ih fun d hd => h d (mem_cons_of_mem c hd)]

theorem components_ofComponents (hstart : start = [] ∨ start = [.root]) (h : ∀ c ∈ steps, Written c) :
    (ofComponents (start ++ steps)).components = start ++ steps := by
  cases steps with
  | nil => rcases hstart with rfl | rfl <;> decide
  | cons c steps =>
    have hc := h c mem_cons_self
    have hsegments := segments_join h
    rcases hstart with rfl | rfl
    · have hplain : ofComponents (c :: steps) = ⟨Text.join "/" ((c :: steps).map Component.text)⟩ := by
        cases c with
        | root => exact absurd hc not_written_root
        | _ => rfl
      have hne : ∀ s, step? s = none → c.text ≠ s := fun s hs he => by rw [← he, hc.2] at hs; contradiction
      rw [nil_append, hplain, components_of_segments hsegments, startOf, if_neg (hne "" rfl), if_neg (hne "." rfl), hc.2,
        filterMap_step? fun d hd => h d (mem_cons_of_mem c hd)]
      rfl
    · have hroot : segments (ofComponents (.root :: c :: steps)) = "" :: (c :: steps).map Component.text := by
        have hslash := segments_slash "" (Text.join "/" ((c :: steps).map Component.text))
        rw [hsegments] at hslash
        exact hslash
      rw [singleton_append, components_of_segments hroot, startOf, if_pos rfl, filterMap_step? h]
      simp [ofComponents, isAbsolute]

theorem components_resolve (p : Path) : p.resolve.components = p.base ++ kept (settle p.components) := by
  rw [resolve_eq, steps_eq, components_ofComponents p.base_cases p.written_kept]

/-- The steps of a path without `.` and with each `..` taking back the name before it. Above the root
there is nothing; a relative path keeps its climbs. -/
def lexical (p : Path) : List Component :=
  (if p.isAbsolute then [.root] else replicate p.climbs .up) ++ p.names.map .name

/-- No `.` is left in a resolved path, and the names are left that no `..` takes back. Of the
climbs above the start one is left if they are odd in number, and none if they are even: resolving
is lexical for an absolute path with an even number of them and a relative one with at most one. -/
theorem resolution_keeps_odd_climbs (p : Path) :
    p.resolve.components = p.base ++ replicate (p.climbs % 2) .up ++ p.names.map .name ∧
    .here ∉ p.resolve.components ∧
    (p.resolve.components = p.lexical ↔ if p.isAbsolute then p.climbs % 2 = 0 else p.climbs ≤ 1) := by
  have heq : p.resolve.components = p.base ++ replicate (p.climbs % 2) .up ++ p.names.map .name := by
    rw [components_resolve, append_assoc]
    rfl
  refine ⟨heq, ?_, ?_⟩
  · rw [heq]
    rcases p.base_cases with h | h <;> simp [h]
  · rw [heq, lexical, base]
    cases p.isAbsolute with
    | true => simp
    | false =>
      have hcount : p.climbs % 2 = p.climbs ↔ p.climbs ≤ 1 := by omega
      simpa [replicate_inj] using hcount

/-- Above the root a `..` is left, and above the start of a relative path both are missing. -/
theorem resolution_is_not_lexical :
    resolve ⟨"/.."⟩ = ⟨"/.."⟩ ∧ lexical ⟨"/.."⟩ = [.root] ∧ resolve ⟨"../.."⟩ = ⟨""⟩ ∧ lexical ⟨"../.."⟩ = [.up, .up] := by
  decide

/-! ### Resolving again -/

theorem steps_resolve (p : Path) : p.resolve.steps = p.steps := by
  rw [Path.steps, components_resolve, p.foldl_base fun c hc => .inr (p.written_kept c hc), reverse_reverse, steps_eq]
  have hsettle : ∀ settled, kept (settle (kept settled)) = kept settled := fun settled => by
    rw [kept.eq_1 settled, settle_replicate, kept, Nat.mod_mod]
  rcases p.base_cases with h | h <;> rw [h]
  · exact hsettle _
  · exact congrArg _ (hsettle _)

/-- A `.` at the start says nothing. -/
theorem foldl_segments (hq : q.isAbsolute = false) (done : List Component) :
    (q.segments.filterMap step?).foldl resolveStep done = q.components.foldl resolveStep done := by
  obtain ⟨first, inner, hs⟩ := exists_cons_of_ne_nil (segments_ne_nil q)
  rw [components_of_segments hs, hs, hq, startOf, filterMap_cons]
  by_cases hempty : first = ""
  · subst hempty
    rfl
  · by_cases hdot : first = "."
    · subst hdot
      cases done <;> rfl
    · rw [if_neg hempty, if_neg hdot]
      cases step? first <;> rfl

/-- A relative path goes on after the steps of the directory that it is seen from. -/
theorem steps_join (p : Path) (hq : q.isAbsolute = false) :
    (p.join q).steps = (q.components.foldl resolveStep p.steps.reverse).reverse := by
  have hslash : ∀ a : String, components ⟨a ++ "/" ++ q.text⟩ = components ⟨a ++ "/"⟩ ++ q.segments.filterMap step? := by
    intro a
    obtain ⟨first, inner, hs⟩ := exists_cons_of_ne_nil (segments_ne_nil ⟨a⟩)
    have hempty : segments ⟨a ++ "/"⟩ = first :: (inner ++ [""]) := by
      simpa [segments_of_not_mem, hs] using segments_slash a ""
    have hboth : segments ⟨a ++ "/" ++ q.text⟩ = first :: (inner ++ q.segments) := by
      rw [segments_slash, hs, cons_append]
    rw [components_of_segments hboth, components_of_segments hempty, isAbsolute_slash]
    simp [filterMap_cons, step?_empty]
  rw [join_of_relative hq, Path.steps, Path.steps, reverse_reverse, ← foldl_segments hq]
  obtain ⟨text⟩ := p
  by_cases hempty : text = ""
  · subst hempty
    rw [show lead ⟨""⟩ = "" from rfl, String.empty_append, foldl_segments hq]
    rfl
  · by_cases hlast : text.toList.getLast? = some '/'
    · obtain ⟨b, rfl⟩ := eq_append_slash_of_getLast? hlast
      simp [lead, hslash b, foldl_append]
    · simp [lead, hlast, hempty, hslash text, components_slash_nil hempty, foldl_append]

/-- A resolved path is left as it is, and seen from it a relative path leads to the same place. -/
theorem resolution_is_stable (a b : Path) (hb : b.isAbsolute = false) :
    a.resolve.resolve = a.resolve ∧ (a.join b).resolve = (a.resolve.join b).resolve := by
  constructor
  · rw [resolve_eq, steps_resolve, ← resolve_eq]
  · rw [resolve_eq, resolve_eq, steps_join a hb, steps_join a.resolve hb, steps_resolve]

/-- From a directory that is left with a `..` at the root. -/
theorem resolution_is_stable_aboveRoot : isAbsolute ⟨"./../b"⟩ = false ∧ resolve (resolve ⟨"/../a"⟩) = resolve ⟨"/../a"⟩ ∧
    resolve (join ⟨"/../a"⟩ ⟨"./../b"⟩) = resolve (join (resolve ⟨"/../a"⟩) ⟨"./../b"⟩) :=
  ⟨by decide, resolution_is_stable _ _ (by decide)⟩

end TypeInfer.Path
