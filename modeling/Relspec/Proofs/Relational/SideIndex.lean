import Relspec.Proofs.Table
import Relspec.Relational.SideIndex

/-!
# Proofs/Relational/SideIndex — what an index holds

* `exists_of_ofModule`, `exists_of_ofProgram` — every entry is that of a module or a program;
* `complete_collect` — every module and every program has an entry;
* `keepsApart_collect_iff` — when each has its own.
-/

namespace Relspec

open List

namespace Relational.SideIndex

variable {x : String} {s : Side}
variable {ms : List Module} {m : Module}

theorem find?_modules_foldl_add : ∀ {ms : List Module} {i : SideIndex},
    (ms.foldl add i).modules.find? x = some s →
      i.modules.find? x = some s ∨ ∃ m ∈ ms, m.id = x ∧ m.side = s
  | [], _, h => .inl h
  | m :: ms, i, h => by
    rw [foldl_cons] at h
    rcases find?_modules_foldl_add h with h | ⟨m', hm', h⟩
    · by_cases hx : x = m.id
      · rw [add, hx, Table.find?_insert_self] at h
        exact .inr ⟨m, mem_cons_self, hx.symm, Option.some.inj h⟩
      · rw [add, Table.find?_insert_of_ne _ hx] at h
        exact .inl h
    · exact .inr ⟨m', mem_cons_of_mem m hm', h⟩

theorem find?_programs_foldl_add : ∀ {ms : List Module} {i : SideIndex},
    (ms.foldl add i).programs.find? x = some s →
      i.programs.find? x = some s ∨ ∃ m ∈ ms, ∃ p ∈ m.programs, p.id = x ∧ p.side = s
  | [], _, h => .inl h
  | m :: ms, i, h => by
    rw [foldl_cons] at h
    rcases find?_programs_foldl_add h with h | ⟨m', hm', h⟩
    · rcases Table.find?_foldl_insert h with h | ⟨p, hp, h⟩
      · exact .inl h
      · exact .inr ⟨m, mem_cons_self, p, hp, h⟩
    · exact .inr ⟨m', mem_cons_of_mem m hm', h⟩

/-- **The entry of a module** is the side set of one of the modules with its id. -/
theorem exists_of_ofModule (h : (collect ms).ofModule x = .ok s) : ∃ m ∈ ms, m.id = x ∧ m.side = s := by
  rw [ofModule] at h
  split at h
  · next hfind =>
    cases h
    exact (find?_modules_foldl_add hfind).resolve_left (fun h => nomatch h)
  · cases h

/-- **The entry of a program** is the side set of one of the programs with its id. -/
theorem exists_of_ofProgram (h : (collect ms).ofProgram x = .ok s) :
    ∃ m ∈ ms, ∃ p ∈ m.programs, p.id = x ∧ p.side = s := by
  rw [ofProgram] at h
  split at h
  · next hfind =>
    cases h
    exact (find?_programs_foldl_add hfind).resolve_left (fun h => nomatch h)
  · cases h

theorem contains_modules_foldl_add : ∀ {ms : List Module} {i : SideIndex},
    (ms.foldl add i).modules.contains x = true ↔
      i.modules.contains x = true ∨ x ∈ ms.map (·.id)
  | [], _ => by simp
  | m :: ms, i => by
    rw [foldl_cons, contains_modules_foldl_add, add, Table.contains_insert, map_cons,
      mem_cons, or_assoc]

theorem contains_programs_foldl_add : ∀ {ms : List Module} {i : SideIndex},
    (ms.foldl add i).programs.contains x = true ↔
      i.programs.contains x = true ∨ x ∈ ms.flatMap fun m => m.programs.map (·.id)
  | [], _ => by simp
  | m :: ms, i => by
    rw [foldl_cons, contains_programs_foldl_add, add, Table.contains_foldl_insert,
      flatMap_cons, mem_append, or_assoc]

theorem exists_ofModule_of_mem (h : m ∈ ms) : ∃ s, (collect ms).ofModule m.id = .ok s := by
  obtain ⟨s, hs⟩ := Option.isSome_iff_exists.mp
    (contains_modules_foldl_add.mpr (.inr (mem_map_of_mem h)))
  exact ⟨s, by rw [ofModule, collect, hs]⟩

theorem exists_ofProgram_of_mem (h : m ∈ ms) {p : Program} (hp : p ∈ m.programs) :
    ∃ s, (collect ms).ofProgram p.id = .ok s := by
  obtain ⟨s, hs⟩ := Option.isSome_iff_exists.mp
    (contains_programs_foldl_add.mpr (.inr (mem_flatMap.mpr ⟨m, h, mem_map_of_mem hp⟩)))
  exact ⟨s, by rw [ofProgram, collect, hs]⟩

theorem forM_eq_ok {ε α : Type} {f : α → Except ε PUnit} : ∀ {l : List α}, (∀ a ∈ l, f a = .ok ()) →
    l.forM f = .ok ()
  | [], _ => rfl
  | a :: l, h => by
    obtain ⟨ha, hl⟩ := forall_mem_cons.mp h
    rw [List.forM, ha]
    exact forM_eq_ok hl

/-- **The index of modules has an entry for each of them and their programs.** -/
theorem complete_collect (ms : List Module) : (collect ms).complete ms = .ok () := by
  refine forM_eq_ok fun m hm => ?_
  obtain ⟨s, hs⟩ := exists_ofModule_of_mem hm
  rw [hs]
  refine forM_eq_ok fun p hp => ?_
  obtain ⟨t, ht⟩ := exists_ofProgram_of_mem hm hp
  rw [ht]
  rfl

/-! ## Entries of their own -/

/-- **An index keeps modules and programs apart**: each finds its own side set. -/
structure KeepsApart (i : SideIndex) (ms : List Module) : Prop where
  modules : ∀ m ∈ ms, i.ofModule m.id = .ok m.side
  programs : ∀ m ∈ ms, ∀ p ∈ m.programs, i.ofProgram p.id = .ok p.side

/-- **When the index of modules keeps them apart**: modules of one id, and programs of one id, have the
same side set. -/
theorem keepsApart_collect_iff : (collect ms).KeepsApart ms ↔
    (∀ m ∈ ms, ∀ m' ∈ ms, m.id = m'.id → m.side = m'.side) ∧
      ∀ m ∈ ms, ∀ m' ∈ ms, ∀ p ∈ m.programs, ∀ p' ∈ m'.programs, p.id = p'.id → p.side = p'.side := by
  constructor
  · refine fun h => ⟨fun m hm m' hm' hid => ?_, fun m hm m' hm' p hp p' hp' hid => ?_⟩
    · have hown := h.modules m hm
      rw [hid, h.modules m' hm'] at hown
      exact (Except.ok.inj hown).symm
    · have hown := h.programs m hm p hp
      rw [hid, h.programs m' hm' p' hp'] at hown
      exact (Except.ok.inj hown).symm
  · refine fun ⟨hmodules, hprograms⟩ => ⟨fun m hm => ?_, fun m hm p hp => ?_⟩
    · obtain ⟨s, hs⟩ := exists_ofModule_of_mem hm
      obtain ⟨m', hm', hid, rfl⟩ := exists_of_ofModule hs
      rw [hs, hmodules m' hm' m hm hid]
    · obtain ⟨s, hs⟩ := exists_ofProgram_of_mem hm hp
      obtain ⟨m', hm', p', hp', hid, rfl⟩ := exists_of_ofProgram hs
      rw [hs, hprograms m' hm' m hm p' hp' p hp hid]

end Relational.SideIndex

end Relspec
