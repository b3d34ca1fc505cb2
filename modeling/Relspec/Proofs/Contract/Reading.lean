import Relspec.Proofs.Contract.Named
import Relspec.Proofs.Contract.RoundTrip
import Relspec.Proofs.Formula.Reading

/-!
# Proofs/Contract/Reading — modules are read over identifiers

Whatever text a module is read from, its names are words of the text.  The readers of modules are put together
from readers of words, marks and formulas, and so is the proof.

* `Reads` — what holds of everything that a reader takes, with one lemma for each way to put readers
  together;
* `statementsNamed` — statements, by induction on the number of lexemes;
* `Module.named_of_read` — modules, and `named_of_roundTrip` — what comes out of a round trip.
-/

namespace Relspec.Contract

open List
open Formula (Lexeme Mark Taken Trailing Worded)

/-- **Everything that a reader takes has a property**, and what it leaves is over identifiers. -/
def Reads {α : Type} (P : α → Prop) (r : Reader α) : Prop :=
  ∀ s, Worded s → ∀ a rest, r s = some (a, rest) → P a ∧ Worded rest

namespace Reads

variable {α β : Type} {P : α → Prop} {Q : β → Prop} {r r' : Reader α}

theorem bind {f : α → Reader β} (hr : Reads P r) (hf : ∀ a, P a → Reads Q (f a)) : Reads Q (r >>= f) := by
  intro s hs b rest h
  obtain ⟨⟨a, t⟩, ha, hb⟩ := Option.bind_eq_some_iff.mp h
  obtain ⟨ha, ht⟩ := hr s hs a t ha
  exact hf a ha t ht b rest hb

theorem pure {a : α} (h : P a) : Reads P (pure a) := by
  intro s hs b rest heq
  cases heq
  exact ⟨h, hs⟩

theorem orElse (hr : Reads P r) (hr' : Reads P r') : Reads P (r <|> r') := by
  intro s hs a rest h
  have happly : (r <|> r') s = (r s <|> r' s) := rfl
  rw [happly] at h
  cases hfirst : r s with
  | some p =>
    rw [hfirst] at h
    cases h
    exact hr s hs a rest hfirst
  | none =>
    rw [hfirst] at h
    exact hr' s hs a rest h

theorem failure : Reads P failure := nofun

theorem word : Reads IsIdentifier Reader.word := by
  intro s hs a rest h
  unfold Reader.word at h
  split at h
  · cases h
    exact ⟨hs.head, hs.tail⟩
  · cases h

theorem keyword {w : String} {f : Unit → Reader α} (hf : Reads P (f ())) :
    Reads P (Reader.keyword w >>= f) := by
  refine .bind (P := fun _ => True) (fun s hs _ rest h => ?_) fun _ _ => hf
  unfold Reader.keyword at h
  split at h
  · split_ifs at h
    cases h
    exact ⟨trivial, hs.tail⟩
  · cases h

theorem mark {m : Mark} {f : Unit → Reader α} (hf : Reads P (f ())) : Reads P (Reader.mark m >>= f) := by
  refine .bind (P := fun _ => True) (fun s hs _ rest h => ?_) fun _ _ => hf
  unfold Reader.mark at h
  split at h
  · split_ifs at h
    cases h
    exact ⟨trivial, hs.tail⟩
  · cases h

theorem formula : Reads Formula.Named Reader.formula := by
  intro s hs a rest h
  obtain ⟨t, ht, heq⟩ := Option.map_eq_some_iff.mp h
  cases heq
  exact Formula.named_of_iff? hs ht

theorem maybe (hr : Reads P r) : Reads (fun o => ∀ a ∈ o, P a) (Reader.maybe r) := by
  intro s hs o rest h
  unfold Reader.maybe at h
  split at h
  · next a t hread =>
    obtain ⟨ha, ht⟩ := hr s hs a t hread
    cases h
    exact ⟨fun b hb => Option.some.inj hb ▸ ha, ht⟩
  · cases h
    exact ⟨fun b hb => absurd hb (Option.not_mem_none b), hs⟩

theorem many (hr : Reads P r) : Reads (fun as => ∀ a ∈ as, P a) (Reader.many r) := by
  intro s
  fun_induction Reader.many r s with
  | case1 s hnone | case3 s a t ha hlt =>
    intro hs as rest h
    cases h
    exact ⟨nofun, hs⟩
  | case2 s a t ha hlt ih =>
    intro hs as rest h
    obtain ⟨⟨bs, u⟩, hread, heq⟩ := Option.map_eq_some_iff.mp h
    obtain ⟨ha, ht⟩ := hr s hs a t ha
    obtain ⟨hbs, hu⟩ := ih ht bs u hread
    cases heq
    exact ⟨forall_mem_cons.mpr ⟨ha, hbs⟩, hu⟩

theorem listed (hr : Reads P r) : Reads (fun as => ∀ a ∈ as, P a) (Reader.listed r) := by
  refine hr.maybe.bind fun o ho => ?_
  cases o with
  | none => exact .pure nofun
  | some a =>
    refine (mark hr).many.bind fun as has => .pure ?_
    exact forall_mem_cons.mpr ⟨ho a rfl, has⟩

theorem braced (w : String) : Reads Formula.Named (Reader.braced w) :=
  keyword <| mark <| formula.bind fun _ hf => mark <| .pure hf

end Reads

/-! ## Statements -/

open Reading
open Reads (keyword formula mark word braced)

theorem reads_simple : Reads Stmt.Named simple := by
  refine .orElse ?_ (.orElse ?_ (.orElse ?_ (.orElse ?_ ?_)))
  · exact keyword <| formula.bind fun _ hf => mark <| .pure hf
  · exact keyword <| formula.bind fun _ hf => mark <| .pure hf
  · exact keyword <| formula.maybe.bind fun _ hf => mark <| .pure hf
  · exact keyword <| word.bind fun _ he => mark <| .pure he
  · exact formula.bind fun _ ht => mark <| formula.bind fun _ hv => mark <| .pure ⟨ht, hv⟩

theorem named_simple? {s : List Lexeme} (hs : Worded s) {t : Taken Stmt s} (h : simple? s = some t) :
    t.value.Named ∧ Worded t.rest := by
  rw [simple?] at h
  split at h
  · next stmt rest hread =>
    split_ifs at h
    cases h
    exact reads_simple s hs stmt rest hread
  · cases h

theorem named_branchHead? {s : List Lexeme} (hs : Worded s) {t : Taken Formula s} (h : branchHead? s = some t) :
    t.value.Named ∧ Worded t.rest := by
  rw [branchHead?] at h
  split at h
  · next f rest hread =>
    split_ifs at h
    cases h
    refine keyword ?_ s hs f rest hread
    exact formula.bind fun _ hf => mark <| .pure hf
  · cases h

/-- Condition, invariant and variant of a loop over identifiers. -/
def HeadNamed (v : Formula × Option Formula × Option Formula) : Prop :=
  v.1.Named ∧ (∀ f ∈ v.2.1, f.Named) ∧ ∀ f ∈ v.2.2, f.Named

theorem named_loopHead? {s : List Lexeme} (hs : Worded s) {t : Taken (Formula × Option Formula × Option Formula) s}
    (h : loopHead? s = some t) : HeadNamed t.value ∧ Worded t.rest := by
  rw [loopHead?] at h
  split at h
  · next v rest hread =>
    split_ifs at h
    cases h
    refine keyword ?_ s hs v rest hread
    exact formula.bind fun _ hf => (braced _).maybe.bind fun _ hi =>
      (braced _).maybe.bind fun _ hd => mark <| .pure ⟨hf, hi, hd⟩
  · cases h

/-- **Statements are read over identifiers**, from fewer than `n` lexemes. -/
def StatementsNamed (n : Nat) : Prop := ∀ s : List Lexeme, s.length < n → Worded s →
  Stmt.NamedAll (statements s).value ∧ Worded (statements s).rest

section

variable {n : Nat} (hn : StatementsNamed n) {s : List Lexeme} (hs : Worded s) (hlt : s.length ≤ n)
include hn hs hlt

theorem named_alternative : Stmt.NamedAll (alternative s).value ∧ Worded (alternative s).rest := by
  rw [alternative.eq_def]
  split
  · next w t =>
    simp only [length_cons] at hlt
    have hels := hn t (by omega) hs.tail.tail
    split_ifs
    · split
      · next els rest _ heq =>
        rw [heq] at hels
        exact ⟨hels.1, hels.2.tail⟩
      · exact ⟨trivial, hs⟩
    · exact ⟨trivial, hs⟩
  · exact ⟨trivial, hs⟩

theorem named_branch? {t : Taken Stmt s} (h : branch? s = some t) : t.value.Named ∧ Worded t.rest := by
  rw [branch?] at h
  split at h
  · cases h
  · next cond u hu hhead =>
    obtain ⟨hcond, hworded⟩ := named_branchHead? hs hhead
    have hthn := hn u (by omega) hworded
    split at h
    · next thn v hv heq =>
      cases h
      rw [heq] at hthn
      simp only [length_cons] at hv
      have hels := named_alternative hn hthn.2.tail (by omega)
      exact ⟨⟨hcond, hthn.1, hels.1⟩, hels.2⟩
    · cases h

theorem named_loop? {t : Taken Stmt s} (h : loop? s = some t) : t.value.Named ∧ Worded t.rest := by
  rw [loop?] at h
  split at h
  · cases h
  · next cond invariant variant u hu hhead =>
    obtain ⟨⟨hcond, hinvariant, hvariant⟩, hworded⟩ := named_loopHead? hs hhead
    have hbody := hn u (by omega) hworded
    split at h
    · next body v hv heq =>
      cases h
      rw [heq] at hbody
      exact ⟨⟨hcond, hinvariant, hvariant, hbody.1⟩, hbody.2.tail⟩
    · cases h

theorem named_statement? {t : Taken Stmt s} (h : statement? s = some t) : t.value.Named ∧ Worded t.rest := by
  rw [statement?] at h
  split at h
  · next hbranch =>
    cases h
    exact named_branch? hn hs hlt hbranch
  · split at h
    · next hloop =>
      cases h
      exact named_loop? hn hs hlt hloop
    · exact named_simple? hs h

end

theorem statementsNamed : ∀ n, StatementsNamed n
  | 0 => fun _ hn => absurd hn (Nat.not_lt_zero _)
  | n + 1 => by
    have hn := statementsNamed n
    intro s hlt hs
    rw [statements]
    split
    · exact ⟨trivial, hs⟩
    · next stmt t ht hread =>
      obtain ⟨hstmt, hworded⟩ := named_statement? hn hs (Nat.le_of_lt_succ hlt) hread
      have hstmts := hn t (by omega) hworded
      exact ⟨⟨hstmt, hstmts.1⟩, hstmts.2⟩

/-- Statements and the brace after them. -/
theorem reads_block : Reads Stmt.NamedAll block := by
  intro s hs a rest h
  obtain ⟨t, ht, heq⟩ := Option.map_eq_some_iff.mp h
  cases heq
  have hstmts := statementsNamed (s.length + 1) s (Nat.lt_succ_self _) hs
  dsimp only at ht
  split at ht
  · next stmts rest _ heq =>
    cases ht
    rw [heq] at hstmts
    exact ⟨hstmts.1, hstmts.2.tail⟩
  · cases ht

/-! ## Modules -/

theorem named_ofName {name : String} (h : IsIdentifier name) : (ValueType.ofName name).Named := by
  rw [ValueType.ofName]
  split_ifs
  · trivial
  · trivial
  · exact h

theorem reads_var : Reads Var.Named var :=
  word.bind fun _ hname => mark <| word.bind fun _ htype => .pure ⟨hname, named_ofName htype⟩

theorem reads_origin : Reads (fun _ => True) origin := by
  refine word.bind fun w _ => ?_
  split
  · exact .pure trivial
  · exact .failure

theorem reads_sideEntry : Reads Side.Named sideEntry := by
  refine .orElse ?_ ?_
  · exact keyword <| reads_origin.bind fun _ _ => word.bind fun _ hname =>
      mark <| .pure ⟨forall_mem_singleton.mpr hname, nofun⟩
  · exact keyword <| reads_origin.bind fun _ _ => formula.bind fun _ hf =>
      mark <| .pure ⟨nofun, forall_mem_singleton.mpr hf⟩

theorem reads_predicate : Reads (fun p => IsIdentifier p.name ∧ p.body.Named) predicate :=
  keyword <| word.bind fun _ hname => mark <| reads_var.listed.bind fun _ _ => mark <| mark <|
    formula.bind fun _ hbody => mark <| .pure ⟨hname, hbody⟩

theorem named_foldl_append : ∀ {sides : List Side} {s : Side}, s.Named → (∀ t ∈ sides, t.Named) →
    (sides.foldl (· ++ ·) s).Named
  | [], _, hs, _ => hs
  | t :: sides, _, hs, h => by
    obtain ⟨ht, hsides⟩ := forall_mem_cons.mp h
    rw [foldl_cons]
    exact named_foldl_append (hs.append ht) hsides

/-- **Programs are read over identifiers.** -/
theorem reads_program (owner : String) : Reads (Program.Named owner) (program owner) := by
  refine keyword <| word.bind fun id hid => mark <| reads_var.listed.bind fun params hparams => mark ?_
  refine (keyword word).maybe.bind fun returns hreturns => mark ?_
  have hlocal : Reads Var.Named (do Reader.keyword "var"; let v ← var; Reader.mark .semicolon; pure v) :=
    keyword <| reads_var.bind fun _ hv => mark <| .pure hv
  refine hlocal.many.bind fun locals hlocals => ?_
  refine (braced _).bind fun requires hrequires => (braced _).bind fun ensures hensures =>
    reads_sideEntry.many.bind fun sides hsides => keyword <| mark <| reads_block.bind fun body hbody => mark ?_
  refine .pure ⟨rfl, hid, hparams, ?_, hlocals, hrequires, hensures,
    named_foldl_append ⟨nofun, nofun⟩ hsides, hbody⟩
  intro t ht
  obtain ⟨name, hname, rfl⟩ := Option.map_eq_some_iff.mp ht
  exact named_ofName (hreturns name hname)

/-- Items added to a module over identifiers. -/
theorem reads_item {m : Module} (h : m.Named) : Reads Module.Named (item m) := by
  refine .orElse ?_ (.orElse ?_ (.orElse ?_ (.orElse ?_ ?_)))
  · refine keyword <| reads_var.bind fun _ hv => mark <|
      .pure { h with fields := ?_ }
    exact forall_mem_append.mpr ⟨h.fields, forall_mem_singleton.mpr hv⟩
  · refine reads_predicate.bind fun _ hp => .pure { h with predicates := ?_ }
    exact forall_mem_append.mpr ⟨h.predicates, forall_mem_singleton.mpr hp⟩
  · exact keyword <| word.bind fun _ hn => mark <|
      .pure { h with invariant := fun _ hname => Option.some.inj hname ▸ hn }
  · exact reads_sideEntry.bind fun _ he => .pure { h with side := h.side.append he }
  · refine (reads_program m.id).bind fun _ hp => .pure { h with programs := ?_ }
    exact forall_mem_append.mpr ⟨h.programs, forall_mem_singleton.mpr hp⟩

theorem reads_items {m : Module} (h : m.Named) : Reads Module.Named (items m) := by
  intro s
  fun_induction items m s with
  | case1 m s hnone =>
    intro hs m' rest heq
    cases heq
    exact ⟨h, hs⟩
  | case2 m s m' t hitem hlt ih =>
    intro hs m'' rest heq
    obtain ⟨hm', ht⟩ := reads_item h s hs m' t hitem
    exact ih hm' ht m'' rest heq
  | case3 m s m' t hitem hlt =>
    intro hs m'' rest heq
    cases heq
    exact ⟨h, hs⟩

theorem reads_wholeModule : Reads Module.Named wholeModule := by
  refine keyword <| word.bind fun id hid => keyword <|
    word.bind fun head _ => (mark word).many.bind fun tail _ =>
      mark <| ?_
  refine (reads_items ?_).bind fun m hm => mark <| .pure hm
  exact ⟨hid, nofun, nofun, nofun, ⟨nofun, nofun⟩, nofun⟩

/-- **Modules are read over identifiers**, whatever the text. -/
theorem Module.named_of_read {text : String} {m : Module} (h : Module.read text = .ok m) : m.Named := by
  obtain ⟨ls, hls, h⟩ := exists_of_except_ok h
  split at h
  · next m' hread =>
    cases h
    exact (reads_wholeModule ls (Formula.worded_lexed hls) _ _ hread).1
  · cases h

theorem named_of_reread {m got : Module} (h : reread m = .ok got) : got.Named := by
  rw [reread] at h
  split at h
  · cases h
  · next got' hread =>
    obtain ⟨_, -, h⟩ := exists_of_except_ok h
    cases h
    exact Module.named_of_read hread

/-- **Modules come out of a round trip over identifiers**, whatever went in. -/
theorem named_of_roundTrip {ms got : List Module} {dir : String} {d d' : Disk}
    (h : (roundTrip ms dir).run.run d = (.ok got, d')) : ∀ m ∈ got, m.Named :=
  forall_mem_of_forall₂ (forall₂_reread h) fun _ _ => named_of_reread

end Relspec.Contract
