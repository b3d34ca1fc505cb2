import Relspec.Contract.RoundTrip
import Relspec.Proofs.Contract.Statements
import Relspec.Proofs.Disk

/-!
# Proofs/Contract/RoundTrip — modules through their texts

The items of a module are read one by one and added to the module.  The text has all items of a kind
together, so what has been read so far is the module with some kinds still missing.

* `splitProgramId_programId` — the id of a program shows its method and overload;
* `program_spelling` — a program, and `items_flatMap` — all items of one kind;
* `Module.read_text_of_legible` — the text of a module reads as the module;
* `roundTrip_of_legible` — modules pass through their texts unchanged;
* `forall₂_reread` — what comes out of a round trip, in general.
-/

namespace Relspec.Contract

open List
open Formula Reader
open Reading (var sideEntry predicate item items)

/-! ## Lists of items -/

section

variable {α β : Type} {r : Reader α} {f : β → List Lexeme} {g : β → α} {t : List Lexeme}

/-- Repeating a reader that takes items one by one. -/
theorem many_flatMap : ∀ {xs : List β}, (∀ x ∈ xs, ∀ u, r (f x ++ u) = some (g x, u) ∧ f x ≠ []) →
    many r (xs.flatMap f ++ t) = (many r t).map fun p => (xs.map g ++ p.1, p.2)
  | [], _ => by simp
  | x :: xs, h => by
    obtain ⟨hx, hne⟩ := h x mem_cons_self (xs.flatMap f ++ t)
    have hlt : (xs.flatMap f ++ t).length < (f x ++ (xs.flatMap f ++ t)).length := by
      have := length_pos_iff.mpr hne
      simp only [length_append]
      omega
    rw [flatMap_cons, append_assoc, many, hx]
    simp only [if_pos hlt]
    rw [many_flatMap fun y hy => h y (mem_cons_of_mem x hy)]
    cases many r t <;> rfl

theorem many_of_none (h : r t = none) : many r t = some ([], t) := by rw [many, h]

theorem many_items {f : α → List Lexeme} {xs : List α}
    (h : ∀ x ∈ xs, ∀ u, r (f x ++ u) = some (x, u) ∧ f x ≠ []) (ht : r t = none) :
    many r (xs.flatMap f ++ t) = some (xs, t) := by
  rw [many_flatMap (g := id) h, many_of_none ht]
  simp

theorem listed_separated {xs : List β} (h : ∀ x ∈ xs, ∀ u, r (f x ++ u) = some (g x, u))
    (hr : r t = none) (ht : mark .comma t = none) :
    listed r (separated .comma f xs ++ t) = some (xs.map g, t) := by
  cases xs with
  | nil => simp [separated, listed, maybe, hr]
  | cons x xs =>
    have hx := h x mem_cons_self
    have hmore : many (do mark .comma; r) (xs.flatMap (fun y => .mark .comma :: f y) ++ t) =
        some (xs.map g, t) := by
      rw [many_flatMap (g := g) fun y hy u => ⟨by simpa using h y (mem_cons_of_mem x hy) u, by simp⟩,
        many_of_none (by simp [ht])]
      simp
    rw [separated_cons, append_assoc]
    simp [listed, maybe, hx, hmore]

end

/-! ## Items of modules and programs -/

section

variable (r : List Lexeme)

theorem var_spelling {v : Var} (h : v.legible = true) :
    var (v.spelling ++ r) = some (v, r) := by
  obtain ⟨-, htype⟩ := Bool.and_eq_true_iff.mp h
  simp [var, Var.spelling, ValueType.ofName_text htype]

theorem listed_vars {vs : List Var} (h : vs.all Var.legible = true) :
    listed var (separated .comma Var.spelling vs ++ .mark .rightBracket :: r) =
      some (vs, .mark .rightBracket :: r) := by
  have hlisted := listed_separated (g := id) (t := .mark .rightBracket :: r)
    (fun v hv u => var_spelling u (all_eq_true.mp h v hv)) (by simp [var]) (by simp)
  rwa [map_id] at hlisted

theorem origin_word (o : Origin) : Reading.origin (.word o.word :: r) = some (o, r) := by
  cases o <;> rfl

theorem sideEntry_var (v : SideVar) :
    sideEntry (v.spelling ++ r) = some ({ vars := [v] }, r) := by
  simp [sideEntry, SideVar.spelling, origin_word]

theorem sideEntry_def {d : SideDef} (h : d.formula.legible = true) :
    sideEntry (d.spelling ++ r) = some ({ defs := [d] }, r) := by
  simp [sideEntry, SideDef.spelling, origin_word, formula_spelling h (stops_semicolon r)]

theorem sideEntry_word {w : String} (h : w ≠ "arithvar" ∧ w ≠ "arithpred") :
    sideEntry (.word w :: r) = none := by
  simp [sideEntry, h]

theorem append_eq (s t : Side) : s ++ t = ⟨s.vars ++ t.vars, s.defs ++ t.defs⟩ := rfl

theorem foldl_vars : ∀ (vs : List SideVar) (s : Side),
    (vs.map fun v => ({ vars := [v] } : Side)).foldl (· ++ ·) s = { s with vars := s.vars ++ vs }
  | [], s => by simp
  | v :: vs, s => by
    rw [map_cons, foldl_cons, foldl_vars vs]
    simp [append_eq]

theorem foldl_defs : ∀ (ds : List SideDef) (s : Side),
    (ds.map fun d => ({ defs := [d] } : Side)).foldl (· ++ ·) s = { s with defs := s.defs ++ ds }
  | [], s => by simp
  | d :: ds, s => by
    rw [map_cons, foldl_cons, foldl_defs ds]
    simp [append_eq]

/-- Side variables and their definitions, before something that is neither. -/
theorem many_sideEntry {s : Side} (h : s.legible = true) (hr : sideEntry r = none) :
    many sideEntry (s.spelling ++ r) =
      some (s.vars.map (fun v => { vars := [v] }) ++ s.defs.map fun d => { defs := [d] }, r) := by
  obtain ⟨-, hdefs⟩ := Bool.and_eq_true_iff.mp h
  rw [Side.spelling, append_assoc,
    many_flatMap fun v _ u => ⟨sideEntry_var u v, by simp [SideVar.spelling]⟩,
    many_flatMap fun d hd u => ⟨sideEntry_def u (all_eq_true.mp hdefs d hd),
      by simp [SideDef.spelling]⟩, many_of_none hr]
  simp

theorem predicate_spelling {p : Predicate} (h : p.legible = true) :
    predicate (p.spelling ++ r) = some (p, r) := by
  simp only [Predicate.legible, Bool.and_eq_true] at h
  have hbody := formula_spelling h.2 (r := .mark .rightBrace :: r) (.cons (by decide))
  simp [predicate, Predicate.spelling, listed_vars _ h.1.2, hbody]

end

/-! ## Programs -/

/-- **The id of a program shows its method and overload**, whatever the underscores. -/
theorem splitProgramId_programId (owner method : String) {n : Nat} (h : n < 2 ^ 63) :
    splitProgramId owner (programId owner method n) = (method, n) := by
  have hrest : Text.dropStart (programId owner method n) (owner ++ "_") = method ++ "_" ++ n.repr := by
    have hid : (programId owner method n).toList = (owner ++ "_").toList ++
        (method ++ "_" ++ n.repr).toList := by
      simp [programId, Nat.toString_eq_repr]
    rw [Text.dropStart, hid, Text.after?_append]
    exact String.ofList_toList
  rw [splitProgramId, hrest, Text.cutLast?_numbered]
  simp only [Text.integer?_repr h, Int.toNat_natCast]

theorem maybe_returns (t : Option ValueType) (r : List Lexeme) :
    maybe (do keyword "returns"; word) (returnsSpelling t ++ .mark .leftBrace :: r) =
      some (t.map ValueType.text, .mark .leftBrace :: r) := by
  cases t <;> simp [maybe, returnsSpelling]

theorem block_spelling {xs : List Stmt} (h : Stmt.legibleAll xs = true) (r : List Lexeme) :
    Reading.block (Stmt.spellingAll xs ++ .mark .rightBrace :: r) = some (xs, r) := by
  obtain ⟨hle, hxs⟩ := statements_spelling h (r := r)
  rw [Reading.block, taking, hxs]
  rfl

theorem many_locals {vs : List Var} (h : vs.all Var.legible = true) (f : Formula)
    (r : List Lexeme) :
    many (do keyword "var"; let v ← var; mark .semicolon; pure v)
      (vs.flatMap localSpelling ++ (bracedSpelling "requires" f ++ r)) =
        some (vs, bracedSpelling "requires" f ++ r) :=
  many_items (fun v hv u => ⟨by
    simp [localSpelling, var_spelling _ (all_eq_true.mp h v hv)], by simp [localSpelling]⟩)
    (by simp [bracedSpelling])

/-- The side entries of a program, one after the other. -/
theorem foldl_sideEntries (s : Side) :
    (s.vars.map (fun v => ({ vars := [v] } : Side)) ++
      s.defs.map fun d => ({ defs := [d] } : Side)).foldl (· ++ ·) {} = s := by
  rw [foldl_append, foldl_vars, foldl_defs]
  simp

theorem map_ofName_text {t : Option ValueType} (h : t.all ValueType.legible = true) :
    (t.map ValueType.text).map ValueType.ofName = t := by
  cases t with
  | none => rfl
  | some t => simp [ValueType.ofName_text h]

theorem program_spelling {owner : String} {p : Program} (h : p.Legible owner) (r : List Lexeme) :
    Reading.program owner (p.spelling ++ r) = some (p, r) := by
  have hspelling : p.spelling ++ r = .word "program" :: .word p.id :: .mark .leftBracket ::
      (separated .comma Var.spelling p.params ++ .mark .rightBracket ::
        (returnsSpelling p.returns ++ .mark .leftBrace :: (p.locals.flatMap localSpelling ++
          (bracedSpelling "requires" p.requires ++ (bracedSpelling "ensures" p.ensures ++
            (p.side.spelling ++ .word "body" :: .mark .leftBrace :: (Stmt.spellingAll p.body ++
              .mark .rightBrace :: .mark .rightBrace :: r))))))) := by
    simp only [Program.spelling, append_assoc, cons_append, nil_append]
  have hsplit : splitProgramId owner p.id = (p.method, p.overload) := by
    rw [h.id, splitProgramId_programId owner p.method h.overload]
  rw [hspelling, Reading.program]
  refine (bind_of (keyword_self _ _)).trans ?_
  refine (bind_of (word_cons _ _)).trans ?_
  refine (bind_of (mark_self _ _)).trans ?_
  refine (bind_of (listed_vars _ h.params)).trans ?_
  refine (bind_of (mark_self _ _)).trans ?_
  refine (bind_of (maybe_returns p.returns _)).trans ?_
  refine (bind_of (mark_self _ _)).trans ?_
  refine (bind_of (many_locals h.locals _ _)).trans ?_
  refine (bind_of (braced_spelling h.requires _)).trans ?_
  refine (bind_of (braced_spelling h.ensures _)).trans ?_
  refine (bind_of (many_sideEntry _ h.side (sideEntry_word _ (by decide)))).trans ?_
  refine (bind_of (keyword_self _ _)).trans ?_
  refine (bind_of (mark_self _ _)).trans ?_
  refine (bind_of (block_spelling h.body _)).trans ?_
  refine (bind_of (mark_self _ _)).trans ?_
  rw [hsplit, foldl_sideEntries, map_ofName_text h.returns]
  rfl

/-! ## Modules -/

section

variable (m : Module) (r : List Lexeme)

theorem keyword_ne {w k : String} (h : w ≠ k) : keyword k (.word w :: r) = none := by
  rw [keyword_cons, if_neg h]

theorem predicate_word {w : String} (h : w ≠ "pred") : predicate (.word w :: r) = none := by
  simp [predicate, h]

theorem item_field {v : Var} (h : v.legible = true) :
    item m (fieldSpelling v ++ r) = some ({ m with fields := m.fields ++ [v] }, r) := by
  have hvar := var_spelling (.mark .semicolon :: r) h
  simp [item, fieldSpelling, hvar]

theorem item_predicate {p : Predicate} (h : p.legible = true) :
    item m (p.spelling ++ r) = some ({ m with predicates := m.predicates ++ [p] }, r) := by
  have hp := predicate_spelling r h
  have hfield : keyword "field" (p.spelling ++ r) = none := keyword_ne _ (by decide)
  simp [item, hfield, hp]

theorem item_invariant (name : String) :
    item m (invariantSpelling name ++ r) = some ({ m with invariant := some name }, r) := by
  simp [item, invariantSpelling, predicate_word]

theorem item_side {e : Side} {w : String} {t : List Lexeme} (hw : w ∈ ["arithvar", "arithpred"])
    (h : sideEntry (.word w :: t) = some (e, r)) :
    item m (.word w :: t) = some ({ m with side := m.side ++ e }, r) := by
  have hne : w ≠ "field" ∧ w ≠ "pred" ∧ w ≠ "invariant" := by
    simp only [mem_cons, not_mem_nil, or_false] at hw
    rcases hw with rfl | rfl <;> decide
  simp [item, hne, predicate_word, h]

theorem item_program {p : Program} (h : p.Legible m.id) :
    item m (p.spelling ++ r) = some ({ m with programs := m.programs ++ [p] }, r) := by
  have hp := program_spelling h r
  obtain ⟨t, ht⟩ : ∃ t, p.spelling ++ r = .word "program" :: t := ⟨_, rfl⟩
  rw [ht] at hp ⊢
  simp [item, predicate_word, sideEntry_word, hp]

end

theorem items_of_item {m n : Module} {a t : List Lexeme} (h : item m (a ++ t) = some (n, t))
    (ha : a ≠ []) : items m (a ++ t) = items n t := by
  have hlt : t.length < (a ++ t).length := by
    have := length_pos_iff.mpr ha
    simp only [length_append]
    omega
  rw [items, h]
  simp only [if_pos hlt]

/-- Items of one kind, which `add` adds to a module. -/
theorem items_flatMap {α : Type} (f : α → List Lexeme) (add : Module → List α → Module)
    (hnil : ∀ m, add m [] = m) (hcons : ∀ m x xs, add m (x :: xs) = add (add m [x]) xs)
    (hid : ∀ m xs, (add m xs).id = m.id) (owner : String) (t : List Lexeme) :
    ∀ (xs : List α), (∀ x ∈ xs, ∀ m : Module, m.id = owner → ∀ u,
      item m (f x ++ u) = some (add m [x], u) ∧ f x ≠ []) → ∀ (m : Module), m.id = owner →
      items m (xs.flatMap f ++ t) = items (add m xs) t
  | [], _, m, _ => by rw [flatMap_nil, nil_append, hnil]
  | x :: xs, h, m, hm => by
    obtain ⟨hx, hne⟩ := h x mem_cons_self m hm (xs.flatMap f ++ t)
    rw [flatMap_cons, append_assoc, items_of_item hx hne, hcons m x xs]
    exact items_flatMap f add hnil hcons hid owner t xs (fun y hy => h y (mem_cons_of_mem x hy))
      (add m [x]) ((hid m [x]).trans hm)

theorem items_rightBrace (m : Module) (r : List Lexeme) :
    items m (.mark .rightBrace :: r) = some (m, .mark .rightBrace :: r) := by
  have hitem : item m (.mark .rightBrace :: r) = none := rfl
  rw [items, hitem]

section

variable (m : Module) (t : List Lexeme)

theorem items_fields {xs : List Var} (h : xs.all Var.legible = true) :
    items m (xs.flatMap fieldSpelling ++ t) =
      items { m with fields := m.fields ++ xs } t :=
  items_flatMap fieldSpelling (fun m xs => { m with fields := m.fields ++ xs }) (by simp) (by simp)
    (fun _ _ => rfl) m.id t xs (fun v hv m _ u =>
      ⟨item_field m u (all_eq_true.mp h v hv), by simp [fieldSpelling]⟩) m rfl

theorem items_predicates {xs : List Predicate} (h : xs.all Predicate.legible = true) :
    items m (xs.flatMap Predicate.spelling ++ t) =
      items { m with predicates := m.predicates ++ xs } t :=
  items_flatMap Predicate.spelling (fun m xs => { m with predicates := m.predicates ++ xs }) (by simp)
    (by simp) (fun _ _ => rfl) m.id t xs (fun p hp m _ u =>
      ⟨item_predicate m u (all_eq_true.mp h p hp), by simp [Predicate.spelling]⟩) m rfl

theorem items_invariant (o : Option String) :
    items m (o.toList.flatMap invariantSpelling ++ t) =
      items { m with invariant := o.or m.invariant } t := by
  cases o with
  | none => rfl
  | some name =>
    rw [Option.toList_some, flatMap_singleton]
    exact items_of_item (item_invariant m t name) (by simp [invariantSpelling])

theorem items_side {s : Side} (h : s.legible = true) :
    items m (s.spelling ++ t) = items { m with side := m.side ++ s } t := by
  obtain ⟨-, hdefs⟩ := Bool.and_eq_true_iff.mp h
  have hvars := items_flatMap SideVar.spelling
    (fun m xs => { m with side := m.side ++ { vars := xs } }) (by simp [append_eq])
    (by simp [append_eq]) (fun _ _ => rfl) m.id
    (s.defs.flatMap SideDef.spelling ++ t) s.vars (fun v _ m _ u =>
      ⟨item_side m u (by simp) (sideEntry_var u v), by simp [SideVar.spelling]⟩) m rfl
  have hdefs := items_flatMap SideDef.spelling
    (fun m xs => { m with side := m.side ++ { defs := xs } }) (by simp [append_eq])
    (by simp [append_eq]) (fun _ _ => rfl) m.id t s.defs (fun d hd m _ u =>
      ⟨item_side m u (by simp) (sideEntry_def u (all_eq_true.mp hdefs d hd)),
        by simp [SideDef.spelling]⟩) { m with side := m.side ++ { vars := s.vars } } rfl
  rw [Side.spelling, append_assoc, hvars, hdefs]
  simp [append_eq]

theorem items_programs {xs : List Program} (h : ∀ p ∈ xs, p.Legible m.id) :
    items m (xs.flatMap Program.spelling ++ t) =
      items { m with programs := m.programs ++ xs } t :=
  items_flatMap Program.spelling (fun m xs => { m with programs := m.programs ++ xs }) (by simp)
    (by simp) (fun _ _ => rfl) m.id t xs (fun p hp n hn u =>
      ⟨item_program n u (hn ▸ h p hp), by simp [Program.spelling]⟩) m rfl

end

theorem many_dotted (tail : List String) (t : List Lexeme) :
    many (do mark .dot; word) (tail.flatMap (fun w => [.mark .dot, .word w]) ++
      .mark .leftBrace :: t) = some (tail, .mark .leftBrace :: t) :=
  many_items (fun _ _ _ => ⟨by simp, by simp⟩) (by simp)

theorem wholeModule_spelling {m : Module} (h : m.Legible) {head : String} {tail : List String}
    (hclass : m.className = Text.join "." (head :: tail)) :
    Reading.wholeModule (m.spelling (head :: tail)) = some (m, []) := by
  have hitems : items { id := m.id, className := m.className }
      (m.fields.flatMap fieldSpelling ++ (m.predicates.flatMap Predicate.spelling ++
        (m.invariant.toList.flatMap invariantSpelling ++ (m.side.spelling ++
          (m.programs.flatMap Program.spelling ++ [.mark .rightBrace]))))) =
        some (m, [.mark .rightBrace]) := by
    rw [items_fields _ _ h.fields, items_predicates _ _ h.predicates, items_invariant,
      items_side _ _ h.side, items_programs, items_rightBrace]
    · simp [append_eq]
    · exact h.programs
  simp only [Module.spelling, separated_cons, append_assoc, cons_append, nil_append]
  rw [Reading.wholeModule]
  refine (bind_of (keyword_self _ _)).trans ?_
  refine (bind_of (word_cons _ _)).trans ?_
  refine (bind_of (keyword_self _ _)).trans ?_
  refine (bind_of (word_cons _ _)).trans ?_
  refine (bind_of (many_dotted _ _)).trans ?_
  refine (bind_of (mark_self _ _)).trans ?_
  rw [← hclass]
  refine (bind_of hitems).trans ?_
  exact bind_of (mark_self _ _)

theorem read_of_legible {m : Module} (h : m.Legible) : Module.read m.text = .ok m := by
  obtain ⟨head, tail, hclass, hwords⟩ := h.className
  rw [Module.read, (m.spells_text h hclass hwords).lexed]
  simp only [bind, Except.bind, wholeModule_spelling h hclass]

/-- **The text of a module reads as the module**, and the ids of its programs show their methods and
overloads. -/
theorem Module.read_text_of_legible {m : Module} (h : m.Legible) :
    Module.read m.text = .ok m ∧
      ∀ p ∈ m.programs, splitProgramId m.id p.id = (p.method, p.overload) := by
  refine ⟨read_of_legible h, fun p hp => ?_⟩
  rw [(h.programs p hp).id, splitProgramId_programId m.id p.method (h.programs p hp).overload]

/-- A module with words of the grammar as names, underscores in its ids and nested statements. -/
def queue : Module where
  id := "my_queue"
  className := "util.my.Queue"
  fields := [⟨"head", .ref "Node"⟩, ⟨"if", .int⟩]
  predicates := [⟨"inv", [⟨"thiz", .ref "Queue"⟩, ⟨"n", .int⟩], .call "le" [.int (-1), .ident "n"]⟩,
    ⟨"pred", [], .truth⟩]
  invariant := some "inv"
  side := ⟨[⟨"s_0", .invariant⟩], [⟨.invariant, .binary .eq (.ident "s_0") (.int 0)⟩]⟩
  programs := [
    { id := "my_queue_offer_all_12", method := "offer_all", overload := 12
      params := [⟨"while", .bool⟩], returns := some (.ref "Node"), locals := [⟨"return", .int⟩]
      ensures := .old (.ident "head")
      side := ⟨[⟨"s_1", .requires⟩, ⟨"s_2", .ensures⟩], [⟨.ensures, .unary .not (.ident "s_2")⟩]⟩
      body := [
        .assign (.ident "return") (.join (.ident "thiz") (.ident "if")),
        .loop (.ident "while") (some .truth) (some (.ident "return")) [
          .branch (.ident "while") [.branch (.ident "body") [.ret none] []] [.raise "Full"],
          .assign (.join (.ident "thiz") (.ident "head")) (.ident "assert")],
        .loop (.ident "invariant") none none [],
        .assert (.ident "invariant"), .assume (.ident "throw"), .ret (some (.ident "head"))] },
    { id := "my_queue__0", method := "", overload := 0 }]

/-- A module full of words of the grammar reads as itself. -/
theorem queue_read_text : queue.Legible ∧ Module.read queue.text = .ok queue ∧
    splitProgramId "my_queue" "my_queue_offer_all_12" = ("offer_all", 12) := by
  have hprograms : ∀ p ∈ queue.programs, p.Legible queue.id := by
    refine List.forall_mem_cons.mpr ⟨?_, List.forall_mem_cons.mpr ⟨?_, fun _ h => nomatch h⟩⟩
    all_goals
      exact ⟨by decide, by decide, by decide, by decide, by decide, by decide, by decide, by decide,
        by decide, by decide⟩
  have hqueue : queue.Legible := ⟨by decide, ⟨"util", ["my", "Queue"], by decide, by decide⟩,
    by decide, by decide, by decide, by decide, hprograms⟩
  have hread := Module.read_text_of_legible hqueue
  exact ⟨hqueue, hread.1, hread.2 _ List.mem_cons_self⟩

/-! ## Modules through their texts -/

theorem sameMembers_self (names : List String) : sameMembers names names = true := by
  simp [sameMembers]

theorem sameIdentifiers_self (m : Module) : sameIdentifiers m m = .ok () := by
  simp only [sameIdentifiers, bne_self_eq_false, sameMembers_self, Bool.not_true]
  rfl

theorem reread_of_legible {m : Module} (h : m.Legible) : reread m = .ok m := by
  rw [reread, read_of_legible h]
  simp only [sameIdentifiers_self]
  rfl

/-- **Modules pass through texts that all read as modules**, and leave the disk alone when the texts are not
kept. -/
theorem run_roundTrip {g : Module → Module} {ms : List Module} (h : ∀ m ∈ ms, reread m = .ok (g m))
    (d : Disk) : (roundTrip ms "").run.run d = (.ok (ms.map g), d) := by
  induction ms with
  | nil => rfl
  | cons m ms ih =>
    obtain ⟨hm, hms⟩ := forall_mem_cons.mp h
    have hone : (roundTripOne "" m).run.run d = (.ok (g m), d) := by
      rw [roundTripOne, hm]
      rfl
    rw [roundTrip, mapM_cons, run_bind_of_ok hone]
    exact run_bind_of_ok (ih hms)

/-- **Legible modules pass through their texts unchanged.** -/
theorem roundTrip_of_legible {ms : List Module} (h : ∀ m ∈ ms, m.Legible) (d : Disk) :
    (roundTrip ms "").run.run d = (.ok ms, d) := by
  have hrun := run_roundTrip (g := id) (fun m hm => reread_of_legible (h m hm)) d
  rwa [map_id] at hrun

/-- A text that is kept is written before it is read. -/
theorem roundTripOne_eq (dir : String) (m : Module) : roundTripOne dir m =
    if dir != "" then
      OnDisk.createDir dir >>= fun _ => OnDisk.writeFile (Path.join dir (m.id ++ ".dj")) m.text >>= fun _ =>
        ofExcept (reread m)
    else ofExcept (reread m) := by
  rw [roundTripOne]
  cases reread m with
  | ok _ => rfl
  | error _ => rfl

theorem reread_of_roundTripOne {dir : String} {m got : Module} {d d' : Disk}
    (h : (roundTripOne dir m).run.run d = (.ok got, d')) : reread m = .ok got := by
  have hread : ∀ {d : Disk}, (ofExcept (reread m) : OnDisk Module).run.run d = (.ok got, d') →
      reread m = .ok got := by
    intro d h
    cases hread : reread m with
    | ok _ =>
      rw [hread] at h
      cases h
      rfl
    | error _ =>
      rw [hread] at h
      cases h
  rw [roundTripOne_eq] at h
  split at h
  · obtain ⟨_, d₁, -, h⟩ := exists_of_bind_ok h
    obtain ⟨_, d₂, -, h⟩ := exists_of_bind_ok h
    exact hread h
  · exact hread h

/-- **What comes out of a round trip is what the texts read as**, whether they are kept or not. -/
theorem forall₂_reread {ms got : List Module} {dir : String} {d d' : Disk}
    (h : (roundTrip ms dir).run.run d = (.ok got, d')) :
    List.Forall₂ (fun m got => reread m = .ok got) ms got :=
  (forall₂_of_mapM_run_ok (P := fun _ => True) (fun _ _ _ => trivial) h trivial).2.imp
    fun _ _ ⟨_, _, hone, _⟩ => reread_of_roundTripOne hone

end Relspec.Contract
