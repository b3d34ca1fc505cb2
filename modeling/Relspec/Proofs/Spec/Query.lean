import Relspec.Proofs.Relational.SideIndex
import Relspec.Proofs.Spec.Arguments
import Relspec.Proofs.Spec.Named
import Relspec.Proofs.Spec.Text

/-!
# Proofs/Spec/Query — the query is the specification with two parts changed

A specification over identifiers holds each marker that the query looks for in one place only: a brace
after the word of a fact, a blank after the word of a command.  So the four edits change the fact and the
check command, and leave every other character alone.

* `Specification.text_eq` — the parts of a text;
* `joinFacts_eq`, `runInvariant_eq`, `injectScope_eq`, `dropCheck_eq` — one lemma for each edit;
* `assemble_query` — the query of an assembled specification.
-/

namespace Relspec.Spec

open List
open Text (LinesLack cut?)
open MethodName (generateInvariant)
open String (toList_append)

/-! ## The edits -/

section Edits

variable {o r : List Char}

/-- Before the fact stand whole lines without the word of a fact. -/
theorem cut?_factMark (ho : LinesLack factMark.toList o) (r : List Char) :
    cut? factMark.toList (o ++ (factMark.toList ++ r)) = some (o, r) := by
  have hcut := Text.cut?_parted (u := factMark.toList) (v := []) (by decide) r (a := o)
    (by simpa using ho.lacks) fun c hc => by rw [ho.eq_newline hc]; decide
  simpa using hcut

theorem joinFacts_eq (ho : LinesLack factMark.toList o) (hr : ¬ factMark.toList <:+: r) :
    joinFacts (o ++ (factMark.toList ++ '\n' :: r)) = .ok (o ++ (factMark.toList ++ r)) := by
  have hcut := cut?_factMark ho ('\n' :: r)
  have hrest : ¬ factMark.toList ++ ['\n'] <:+: r := fun h =>
    hr ((prefix_append factMark.toList ['\n']).isInfix.trans h)
  rw [joinFacts, hcut]
  dsimp only
  rw [Text.replaceFrom_of_cut? (by decide) _ (Text.cut?_concat hcut),
    Text.replaceFrom_of_not_infix _ hrest, append_assoc]

/-- A character that neither parts arguments nor opens or closes a bracket. -/
def isPlain (c : Char) : Bool := !(['[', '(', ']', ')', ','].contains c)

theorem closing_plain : ∀ {a : List Char}, (∀ c ∈ a, c ∉ ['[', '(', ']', ')']) → ∀ b : List Char,
    closing 0 (a ++ ']' :: b) = some (a, b)
  | [], _, b => rfl
  | c :: a, h, b => by
    obtain ⟨hc, ha⟩ := forall_mem_cons.mp h
    simp only [mem_cons, not_or] at hc
    rw [cons_append, closing, closing_plain ha b]
    simp [hc]

theorem parted_of_isPlain {ps : List (List Char)} (h : ∀ x ∈ ps, ∀ c ∈ x, isPlain c = true) : Parted ps where
  lacks x hx l r hl := absurd (h x hx ',' (by rw [hl]; simp)) (by decide)
  closed x hx := by
    have hplain : ∀ c ∈ x, c ≠ '[' ∧ c ≠ '(' ∧ c ≠ ']' ∧ c ≠ ')' ∧ c ≠ ',' := fun c hc => by
      simpa [isPlain] using h x (mem_of_mem_dropLast hx) c hc
    rw [depth, countP_eq_zero.mpr (by grind), countP_eq_zero.mpr (by grind)]
    rfl

theorem queriedClass?_eq (owner : String) :
    queriedClass? ("precondition_" ++ (owner ++ ("_" ++ generateInvariant))) =
      some owner := by
  rw [queriedClass?]
  have hstart := Text.startsWith_append "precondition_"
    (owner ++ ("_" ++ generateInvariant))
  have hend := Text.endsWith_append ("precondition_" ++ owner) ("_" ++ generateInvariant)
  rw [String.append_assoc] at hend
  simp only [hstart, hend, Bool.and_self, if_true, Text.dropStart_append, Text.dropEnd_append]

theorem runInvariant_of_cut? {s before after pred args inside rest : List Char} {owner : String}
    (hcut : cut? factMark.toList s = some (before, after))
    (hcall : cut? ['['] (after.dropWhile (· == ' ')) = some (pred, args))
    (hclass : queriedClass? (String.ofList pred) = some owner)
    (hclose : closing 0 args = some (inside, rest)) :
    runInvariant s = .ok (before ++ runText (after.takeWhile (· == ' ')) owner inside, rest) := by
  rw [runInvariant]
  split
  · next hnone => cases hcut.symm.trans hnone
  · next hsome =>
    obtain ⟨rfl, rfl⟩ := Prod.mk.inj (Option.some.inj (hcut.symm.trans hsome))
    simp only [hcall, hclass, hclose]

/-- **The run takes the place of the fact**; its arguments are those of the precondition without the
versions of the exception. -/
theorem runInvariant_eq (ho : LinesLack factMark.toList o) {owner : String} (howner : '[' ∉ owner.toList)
    {a b : List Char} {as : List (List Char)} (h : ∀ x ∈ a :: b :: as, ∀ c ∈ x, isPlain c = true) :
    runInvariant (o ++ (factMark.toList ++ ("  ".toList ++
        (("precondition_" ++ (owner ++ ("_" ++ generateInvariant))).toList ++
          '[' :: ([','].intercalate (a :: b :: as) ++ ']' :: r))))) =
      .ok (o ++ ("run \x7b  ".toList ++ ((Contract.invariantName owner).toList ++
        '[' :: ([','].intercalate (withoutThrows (a :: b :: as)) ++ [']']))), r) := by
  generalize hpred : "precondition_" ++ (owner ++ ("_" ++ generateInvariant)) = pred
  have hbracket : '[' ∉ pred.toList := by
    simp only [← hpred, toList_append, mem_append, not_or]
    exact ⟨by decide, howner, by decide, by decide⟩
  have hinside : ∀ c ∈ [','].intercalate (a :: b :: as), c ∉ ['[', '(', ']', ')'] := by
    intro c hc hmem
    have hother : ['[', '(', ']', ')'].all (fun d => d != ',' && !isPlain d) = true := by decide
    obtain ⟨hcomma, hplain⟩ := Bool.and_eq_true_iff.mp (all_eq_true.mp hother c hmem)
    refine Text.not_mem_intercalate (by simpa using hcomma) (fun x hx hcx => ?_) hc
    rw [h x hx c hcx] at hplain
    cases hplain
  have hblanks : ∀ t : List Char, ("  ".toList ++ (pred.toList ++ t)).takeWhile (· == ' ') = [' ', ' '] ∧
      ("  ".toList ++ (pred.toList ++ t)).dropWhile (· == ' ') = pred.toList ++ t := by
    intro t
    simp [← hpred]
  have hclass : queriedClass? (String.ofList pred.toList) = some owner := by
    rw [String.ofList_toList, ← hpred, queriedClass?_eq]
  have hcall : ∀ t : List Char, cut? ['['] (("  ".toList ++ (pred.toList ++ '[' :: t)).dropWhile (· == ' ')) =
      some (pred.toList, t) := by
    intro t
    rw [(hblanks _).2, Text.cut?_append _ hbracket]
  rw [runInvariant_of_cut? (cut?_factMark ho _) (hcall _) hclass (closing_plain hinside r),
    (hblanks _).1]
  unfold runText splitArgs
  rw [pieces_intercalate (parted_of_isPlain h) (cons_ne_nil a _)]
  simp

/-- **The scope of the check command**, from its marker to the end of its line, is copied behind the
first closing brace. -/
theorem injectScope_eq {x scope : List Char} (hx : ¬ "for ".toList <:+: '\n' :: '\x7d' :: x)
    (hlast : x.getLast? = some ' ') (hscope : '\n' ∉ scope) (hend : scope.getLast? = some 't') :
    injectScope ('\n' :: '\x7d' :: (x ++ (scopeMark.toList ++ (scope ++ ['\n'])))) =
      .ok ('\n' :: '\x7d' :: ' ' :: (scopeMark.toList ++ scope ++
        (x ++ (scopeMark.toList ++ (scope ++ ['\n']))))) := by
  have hcut := Text.cut?_parted (u := "for".toList) (v := " 0 but".toList) (by decide)
    (scope ++ ['\n']) (a := '\n' :: '\x7d' :: x) hx fun c hc => ?_
  · have hmark : scopeMark.toList = "for".toList ++ " 0 but".toList := by decide
    have hline : (scope ++ ['\n']).takeWhile (· != '\n') = scope := by
      rw [takeWhile_append_of_pos fun c hc => bne_iff_ne.mpr (ne_of_mem_of_not_mem hc hscope)]
      exact append_nil scope
    have hkeep : ((scopeMark.toList ++ scope).reverse.dropWhile fun c => c == '\r' || c == ' ').reverse =
        scopeMark.toList ++ scope := by
      obtain ⟨t, rfl⟩ := List.getLast?_eq_some_iff.mp hend
      rw [← append_assoc, reverse_append]
      simp
    have hof : scopeOf ('\n' :: '\x7d' :: (x ++ (scopeMark.toList ++ (scope ++ ['\n'])))) =
        .ok (scopeMark.toList ++ scope) := by
      rw [scopeOf]
      rw [← hmark] at hcut
      simp only [cons_append] at hcut
      rw [hcut]
      simp only [hline, hkeep]
    have hbrace : cut? [Char.ofNat 0x7D] ('\n' :: '\x7d' :: (x ++ (scopeMark.toList ++ (scope ++ ['\n'])))) =
        some (['\n'], x ++ (scopeMark.toList ++ (scope ++ ['\n']))) :=
      Text.cut?_append (a := ['\n']) _ (by decide)
    simp only [injectScope, hof, bind, Except.bind, hbrace]
    simp
  · have hc' : (' ' : Char) = c := by
      obtain ⟨t, rfl⟩ := List.getLast?_eq_some_iff.mp hlast
      rw [← cons_append, ← cons_append, List.getLast?_concat] at hc
      exact Option.some.inj hc
    rw [← hc']
    decide

/-- **The check command goes**, and with it its line. -/
theorem dropCheck_eq {x y : List Char} (hx : LinesLack "check ".toList x) (hy : '\n' ∉ y) :
    dropCheck (x ++ (checkMark.toList ++ (y ++ ['\n']))) = .ok x := by
  have hcut := Text.cut?_parted (u := "check".toList) (v := " check".toList) (by decide)
    (y ++ ['\n']) (a := x) hx.lacks fun c hc => by rw [hx.eq_newline hc]; decide
  have hmark : checkMark.toList = "check".toList ++ " check".toList := by decide
  rw [← hmark] at hcut
  have hline : (y ++ ['\n']).dropWhile (· != '\n') = ['\n'] := by
    rw [dropWhile_append_of_pos fun c hc => bne_iff_ne.mpr (ne_of_mem_of_not_mem hc hy)]
    rfl
  rw [dropCheck, hcut]
  simp [hline]

end Edits

/-! ## The parts of a text -/

namespace Specification

/-- The text before the fact. -/
def opening (s : Specification) : String :=
  "module " ++ s.program ++ "\n\n" ++ String.join (Library.all.map Library.text) ++
    String.join (s.sigs.map fun g => g.text ++ "\n") ++ "\n" ++
    String.join (s.preds.map Pred.text) ++
    "one sig " ++ holder ++ " \x7b\n" ++ indented "  " (fieldLines s.vars) ++ "\x7d\n\n"

/-- The text between the fact and the check command. -/
def assertion (s : Specification) : String :=
  "\n\nassert " ++ checkName s.program ++ " \x7b\n  " ++ s.goal.text ++ "\n\x7d\n\n"

/-- The scope of the check command. -/
def scope (s : Specification) : String := scopeMark ++ " " ++ s.scopeText

/-- **The parts of a text**: an opening, a fact, an assertion and a check command. -/
theorem text_eq (s : Specification) :
    s.text = s.opening ++ (factMark ++ "\n  " ++ s.fact.text ++ "\n\x7d") ++ s.assertion ++
      ("check " ++ checkName s.program ++ " " ++ s.scope ++ "\n") := by
  have hseam : ∀ t : String, "\n\x7d\n\n" ++ ("assert " ++ t) = "\n\x7d" ++ ("\n\nassert " ++ t) := by
    intro t
    rw [← String.append_assoc, ← String.append_assoc]
    congr 1
  unfold text opening assertion scope
  simp only [String.append_assoc, hseam]

end Specification

/-! ## Lines without the word of a fact -/

/-- Without a brace there is no fact. -/
theorem lacks_of_unbraced {x : List Char} (hx : '\x7b' ∉ x) : ¬ factMark.toList <:+: x := fun h =>
  hx (h.subset (by decide))

/-- A line whose one brace comes after something else than the word of a fact. -/
theorem lacks_of_brace {x y : List Char} (hx : '\x7b' ∉ x) (hword : ¬ "fact ".toList <:+ x)
    (hy : '\x7b' ∉ y) : ¬ factMark.toList <:+: x ++ '\x7b' :: y := by
  intro h
  have hmark : factMark.toList = "fact ".toList ++ ['\x7b'] := by decide
  rw [hmark] at h
  rcases Text.infix_of_infix_mark hx (by decide) h with h | h
  · exact hword h
  · exact hy (h.subset (by decide))

theorem line_of_unbraced {x : List Char} (hx : '\x7b' ∉ x) : LinesLack factMark.toList (x ++ ['\n']) :=
  .line (by decide) (by decide) (lacks_of_unbraced hx)

theorem Library.linesLack {l : Library} (h : l ∈ all) : LinesLack factMark.toList l.chars where
  mark := by decide
  whole := .inr ⟨_, rfl⟩
  lacks := by
    have hall : ∀ l ∈ all, cut? factMark.toList l.chars = none := by decide +kernel
    exact Text.cut?_eq_none_iff.mp (hall l h)

theorem indented_linesLack {blanks : String} (hblanks : '\x7b' ∉ blanks.toList) {ls : List String}
    (h : ∀ l ∈ ls, Unbraced l) : LinesLack factMark.toList (indentedChars blanks ls) := by
  refine .flatMap (by decide) (by decide) fun l hl => line_of_unbraced ?_
  rw [mem_append, not_or]
  exact ⟨hblanks, h l hl⟩

theorem conjunctLines_unbraced {fs : List Formula} (h : ∀ f ∈ fs, f.Named) :
    ∀ l ∈ conjunctLines fs, Unbraced l := by
  unfold conjunctLines
  split
  · exact forall_mem_singleton.mpr (Formula.leftBrace_not_mem_text Formula.named_truth)
  · next f rest hfs =>
    have hkeep : ∀ g ∈ f :: rest, Unbraced g.text := fun g hg =>
      Formula.leftBrace_not_mem_text (h g (mem_of_mem_filter (hfs ▸ hg)))
    obtain ⟨hf, hrest⟩ := forall_mem_cons.mp hkeep
    refine forall_mem_cons.mpr ⟨hf, forall_mem_map.mpr fun g hg => ?_⟩
    exact (by decide : Unbraced "and ").append (hrest g hg)

theorem Body.linesLack {b : Body} (h : ∀ f ∈ b.formulas, f.Named) :
    LinesLack factMark.toList b.chars := by
  cases b with
  | conjuncts goals => exact indented_linesLack (by decide) (conjunctLines_unbraced h)
  | follows hypotheses goals =>
    obtain ⟨hhypotheses, hgoals⟩ := forall_mem_append.mp h
    have hopen : LinesLack factMark.toList ("  (".toList ++ ['\n']) := line_of_unbraced (by decide)
    have hmiddle : LinesLack factMark.toList ("  ) implies (".toList ++ ['\n']) :=
      line_of_unbraced (by decide)
    have hclose : LinesLack factMark.toList ("  )".toList ++ ['\n']) := line_of_unbraced (by decide)
    exact (((hopen.append (indented_linesLack (by decide) (conjunctLines_unbraced hhypotheses))).append
      hmiddle).append (indented_linesLack (by decide) (conjunctLines_unbraced hgoals))).append hclose

/-- The end of a block with an empty line after it. -/
theorem blockEnd_linesLack : LinesLack factMark.toList "\x7d\n\n".toList where
  mark := by decide
  whole := .inr ⟨"\x7d\n".toList, by decide⟩
  lacks := lacks_of_unbraced (by decide)

theorem Pred.linesLack {p : Pred} (h : p.Named) : LinesLack factMark.toList p.chars := by
  have hhead : LinesLack factMark.toList (("pred ".toList ++ p.name.toList ++ "[".toList ++
      ", ".toList.intercalate (p.params.map fun x => x.text.toList) ++ "] ".toList ++
      '\x7b' :: []) ++ ['\n']) := by
    refine .line (by decide) (by decide) (lacks_of_brace ?_ ?_ not_mem_nil)
    · simp only [mem_append, not_or]
      refine ⟨⟨⟨⟨by decide, IsIdentifier.unbraced h.name⟩, by decide⟩, ?_⟩, by decide⟩
      exact Text.not_mem_intercalate (by decide) (forall_mem_map.mpr h.params)
    · -- The parameters end in a bracket, and the word of a fact has none.
      intro hword
      have hend := suffix_of_suffix_length_le (suffix_append _ "] ".toList) hword (by decide)
      revert hend
      decide
  have hseam : "] \x7b\n".toList = "] ".toList ++ (['\x7b'] ++ ['\n']) := by decide
  have hwhole := (hhead.append (Body.linesLack h.body)).append blockEnd_linesLack
  unfold chars
  rw [hseam]
  simpa only [append_assoc] using hwhole

theorem sig_linesLack {g : Sig} (hname : IsIdentifier g.name) {parent : String}
    (hparent : g.parent = some parent) (hbrace : Unbraced parent)
    (hword : ¬ "fact ".toList <:+ " extends ".toList ++ parent.toList ++ " ".toList) :
    LinesLack factMark.toList (g.chars ++ ['\n']) := by
  refine .line (by decide) (by decide) ?_
  have hseam : " \x7b\x7d".toList = " ".toList ++ '\x7b' :: ['\x7d'] := by decide
  have hflags : ∀ (b : Bool) (w : String), Unbraced w → '\x7b' ∉ if b then w.toList else [] := by
    intro b w hw
    cases b
    · exact not_mem_nil
    · exact hw
  unfold Sig.chars
  rw [hparent, hseam, ← append_assoc, Option.toList_some, flatMap_singleton,
    append_assoc _ _ " ".toList]
  refine lacks_of_brace ?_ (fun h => hword (suffix_of_suffix_length_le h (suffix_append _ _) ?_)) (by decide)
  · simp only [mem_append, not_or]
    exact ⟨⟨⟨⟨hflags _ _ (by decide), hflags _ _ (by decide)⟩, by decide⟩, IsIdentifier.unbraced hname⟩,
      ⟨by decide, hbrace⟩, by decide⟩
  · simp only [length_append]
    have : "fact ".toList.length ≤ " extends ".toList.length := by decide
    omega

theorem fieldText_unbraced {x : StateVar} (hname : IsIdentifier x.name) (htype : Unbraced x.shape.type) :
    Unbraced x.fieldText := by
  rw [StateVar.fieldText]
  refine ((IsIdentifier.unbraced hname).append (by decide)).append ?_
  split
  · exact htype
  · exact (by decide : Unbraced "one ").append (paren_unbraced htype)

theorem fieldLines_unbraced : ∀ {xs : List StateVar},
    (∀ x ∈ xs, IsIdentifier x.name ∧ Unbraced x.shape.type) → ∀ l ∈ fieldLines xs, Unbraced l
  | [], _ => nofun
  | [x], h => by
    obtain ⟨hname, htype⟩ := h x mem_cons_self
    exact forall_mem_singleton.mpr (fieldText_unbraced hname htype)
  | x :: y :: xs, h => by
    obtain ⟨⟨hname, htype⟩, hxs⟩ := forall_mem_cons.mp h
    exact forall_mem_cons.mpr
      ⟨(fieldText_unbraced hname htype).append (by decide), fieldLines_unbraced hxs⟩

namespace Specification

variable {s : Specification}

/-- **Before the fact there is no other.** -/
theorem opening_linesLack (h : s.Named) : LinesLack factMark.toList s.opening.toList := by
  have hn : '\n' ∉ factMark.toList := by decide
  have hne : factMark.toList ≠ [] := by decide
  have hempty : LinesLack factMark.toList "\n".toList := line_of_unbraced (x := []) not_mem_nil
  have hmodule : LinesLack factMark.toList (("module ".toList ++ s.program.toList ++ ['\n']) ++ ['\n']) := by
    refine line_of_unbraced ?_
    simp only [mem_append, not_or]
    exact ⟨⟨by decide, IsIdentifier.unbraced h.program⟩, by decide⟩
  have hlibrary : LinesLack factMark.toList (Library.all.flatMap Library.chars) :=
    .flatMap hn hne fun _ hl => Library.linesLack hl
  have hsigs : LinesLack factMark.toList (s.sigs.flatMap fun g => g.chars ++ "\n".toList) := by
    refine .flatMap hn hne fun g hg => ?_
    rcases h.parents g hg with hparent | hparent
    · exact sig_linesLack (h.sigs g hg) hparent (by decide) (by decide)
    · exact sig_linesLack (h.sigs g hg) hparent (by decide) (by decide)
  have hpreds : LinesLack factMark.toList (s.preds.flatMap Pred.chars) :=
    .flatMap hn hne fun p hp => Pred.linesLack (h.preds p hp)
  have hholder : LinesLack factMark.toList ("one sig ".toList ++ holder.toList ++ " \x7b\n".toList) :=
    ⟨hn, .inr ⟨"one sig QF \x7b".toList, by decide⟩, Text.cut?_eq_none_iff.mp (by decide)⟩
  have hfields : LinesLack factMark.toList (indentedChars "  " (fieldLines s.vars)) :=
    indented_linesLack (by decide) (fieldLines_unbraced h.vars)
  have hwhole := ((((((hmodule.append hlibrary).append hsigs).append hempty).append hpreds).append
    hholder).append hfields).append blockEnd_linesLack
  have hseam : "\n\n".toList = ['\n'] ++ ['\n'] := by decide
  unfold opening
  simpa only [toList_append, String.toList_join, flatMap_map, Library.toList_text,
    Sig.toList_text, Pred.toList_text, toList_indented, hseam, append_assoc] using hwhole

end Specification

/-! ## Words before a blank -/

section Blanks

variable {q x y : List Char}

/-- A word with a blank after it stands neither before the first blank nor after it. -/
theorem not_infix_blank (hx : ' ' ∉ x) (hlast : x.getLast? ≠ q.getLast?) (hy : ¬ q ++ [' '] <:+: y)
    (hq : ' ' ∉ q := by decide) (hne : q ≠ [] := by decide) : ¬ q ++ [' '] <:+: x ++ ' ' :: y := by
  intro h
  rcases Text.infix_of_infix_mark hx hq h with ⟨t, rfl⟩ | h
  · exact hlast (List.getLast?_append_of_ne_nil t hne)
  · exact hy h

theorem not_infix_unblank (hx : ' ' ∉ x) : ¬ q ++ [' '] <:+: x := fun h =>
  hx (h.subset (mem_append_right q mem_cons_self))

theorem intercalate_concat (sep y : List Char) : ∀ xs : List (List Char),
    sep.intercalate (xs ++ [y]) = xs.flatMap (· ++ sep) ++ y
  | [] => by simp
  | [x] => by simp [intercalate_cons_cons]
  | x :: x' :: xs => by
    have ih := intercalate_concat sep y (x' :: xs)
    rw [cons_append] at ih
    rw [cons_append, cons_append, intercalate_cons_cons, ih]
    simp only [flatMap_cons, append_assoc]

end Blanks

theorem Call.not_mem {c : Call} (h : c.Named) {d : Char} (hd : Formula.Lexeme.isWordPart d = false)
    (hmark : d ∉ "[.,]".toList) : d ∉ c.text.toList := by
  simp only [String.reduceToList, mem_cons, not_or] at hmark
  have hheld : ∀ x ∈ c.args, d ∉ (held x).toList := by
    intro x hx
    have hholder : IsIdentifier holder := by decide
    simp only [held, toList_append, mem_append, not_or]
    exact ⟨⟨hholder.not_mem hd, by simpa using hmark.2.1⟩, (h.args x hx).not_mem hd⟩
  rw [toList_text]
  simp only [chars, mem_append, not_or]
  exact ⟨⟨⟨h.name.not_mem hd, by simpa using hmark.1⟩,
    Text.not_mem_intercalate (by simpa using hmark.2.2.1) (forall_mem_map.mpr hheld)⟩,
    by simpa using hmark.2.2.2⟩

namespace Specification

variable {s : Specification}

/-- The characters of a scope: each class with a comma after it, then the bits of an integer. -/
theorem toList_scopeText (s : Specification) : s.scopeText.toList =
    s.scopes.flatMap (fun c => (toString c.1).toList ++ ' ' :: (c.2.toList ++ [',', ' '])) ++
      ((toString s.bits).toList ++ " int".toList) := by
  rw [scopeText, Text.join, String.toList_intercalate, map_append, map_singleton,
    intercalate_concat, map_map, flatMap_map, toList_append]
  simp

theorem scopeText_not_mem (h : s.Named) {d : Char} (hword : Formula.Lexeme.isWordPart d = false)
    (hother : d ∉ ['-', ' ', ',']) : d ∉ s.scopeText.toList := by
  have hdigit : d.isDigit = false := Bool.eq_false_iff.mpr fun hd => by
    simp [Formula.Lexeme.isWordPart, Char.isAlphanum, hd] at hword
  simp only [mem_cons, not_or] at hother
  have hnumber : ∀ n : Int, d ∉ (toString n).toList := Text.not_mem_toString hdigit hother.1
  have hint : d ∉ "int".toList := (by decide : IsIdentifier "int").not_mem hword
  have hseam : " int".toList = ' ' :: "int".toList := by decide
  rw [toList_scopeText, hseam]
  simp only [mem_append, mem_flatMap, mem_cons, not_or, not_exists, not_and]
  exact ⟨fun c hc => ⟨hnumber c.1, hother.2.1, (h.scopes c hc).not_mem hword, hother.2.2.1, hother.2.1,
    not_mem_nil⟩, hnumber s.bits, hother.2.1, hint⟩

theorem getLast?_scopeText (s : Specification) : s.scopeText.toList.getLast? = some 't' := by
  rw [toList_scopeText, ← append_assoc, List.getLast?_append_of_ne_nil _ (by decide)]
  decide

/-- A word before a blank that is no part of a scope: neither a number nor a comma comes after it. -/
theorem scopeText_lacks (h : s.Named) : ¬ "check ".toList <:+: s.scopeText.toList := by
  have hmark : "check ".toList = "check".toList ++ [' '] := by decide
  have hseam : " int".toList = ' ' :: "int".toList := by decide
  have hnumber : ∀ n : Int, (toString n).toList.getLast? ≠ "check".toList.getLast? := by
    intro n hn
    have hk : "check".toList.getLast? = some 'k' := by decide
    exact Text.not_mem_toString rfl (by decide) n (mem_of_getLast? (hn.trans hk))
  have hunblank : ∀ n : Int, ' ' ∉ (toString n).toList := Text.not_mem_toString rfl (by decide)
  rw [toList_scopeText, hmark, hseam]
  -- One class after the other, each between blanks of which none comes after the word.
  have hscopes := h.scopes
  generalize s.scopes = scopes at hscopes
  induction scopes with
  | nil =>
    exact not_infix_blank (hunblank _) (hnumber _) (not_infix_unblank (by decide))
  | cons c scopes ih =>
    obtain ⟨hc, hscopes⟩ := forall_mem_cons.mp hscopes
    have hclass : ' ' ∉ c.2.toList ++ [','] := by
      rw [mem_append, not_or]
      exact ⟨hc.not_mem rfl, by decide⟩
    have hcomma : (c.2.toList ++ [',']).getLast? ≠ "check".toList.getLast? := by
      rw [List.getLast?_concat]
      decide
    have hstep := not_infix_blank (hunblank c.1) (hnumber c.1) (not_infix_blank hclass hcomma (ih hscopes))
    simpa only [flatMap_cons, append_assoc, cons_append, nil_append] using hstep

section Check

variable (h : s.Named) (hid : s.program.toList.getLast? = some '0')
include h

theorem checkName_not_mem {d : Char} (hd : Formula.Lexeme.isWordPart d = false) :
    d ∉ (checkName s.program).toList :=
  ((by decide : IsIdentifier "check_").append h.program).not_mem hd

omit h in
include hid in
theorem getLast?_checkName : (checkName s.program).toList.getLast? = some '0' := by
  rw [checkName, toList_append, List.getLast?_append, hid]
  rfl

include hid

/-- **Between the fact and the check command**, after the end `x` of a line, a blank comes after few
characters only. -/
theorem assertion_linesLack {q x : List Char} (hx : ¬ q ++ [' '] <:+: x) (hq : ' ' ∉ q := by decide)
    (hn : '\n' ∉ q := by decide) (hne : q ≠ [] := by decide) (ht : some 't' ≠ q.getLast? := by decide)
    (hzero : some '0' ≠ q.getLast? := by decide) :
    LinesLack (q ++ [' ']) (x ++ s.assertion.toList) := by
  have hn' : '\n' ∉ q ++ [' '] := by
    rw [mem_append, not_or]
    exact ⟨hn, by decide⟩
  have hne' : q ++ [' '] ≠ [] := by simp
  have hnone : ([] : List Char).getLast? ≠ q.getLast? := fun hnone =>
    hne (List.getLast?_eq_none_iff.mp hnone.symm)
  have hempty : LinesLack (q ++ [' ']) ([] ++ ['\n']) :=
    .line hn' hne' (not_infix_unblank not_mem_nil)
  have hassert : LinesLack (q ++ [' '])
      ("assert".toList ++ ' ' :: ((checkName s.program).toList ++ ' ' :: ['\x7b']) ++ ['\n']) := by
    refine .line hn' hne' (not_infix_blank (by decide) ht ?_ hq hne)
    refine not_infix_blank (checkName_not_mem h rfl) ?_ (not_infix_unblank (by decide)) hq hne
    rw [getLast?_checkName hid]
    exact hzero
  have hgoal : LinesLack (q ++ [' ']) ([] ++ ' ' :: ([] ++ ' ' :: s.goal.text.toList) ++ ['\n']) := by
    refine .line hn' hne' (not_infix_blank not_mem_nil hnone ?_ hq hne)
    refine not_infix_blank not_mem_nil hnone (not_infix_unblank ?_) hq hne
    exact Call.not_mem h.goal rfl (by decide)
  have hclose : LinesLack (q ++ [' ']) (['\x7d'] ++ ['\n']) :=
    .line hn' hne' (not_infix_unblank (by decide))
  have hwhole := (((((LinesLack.line hn' hne' hx).append hempty).append hassert).append
    hgoal).append hclose).append hempty
  simpa [assertion] using hwhole

end Check

end Specification

/-! ## The query -/

theorem isPlain_of_isWordPart {c : Char} (h : Formula.Lexeme.isWordPart c = true) : isPlain c = true := by
  by_contra hplain
  have hmarks : ['[', '(', ']', ')', ','].all (!Formula.Lexeme.isWordPart ·) = true := by decide
  have hmem : c ∈ ['[', '(', ']', ')', ','] := by
    simpa only [isPlain, Bool.not_eq_true', Bool.not_eq_false, contains_iff_mem] using hplain
  have hnot := all_eq_true.mp hmarks c hmem
  rw [h] at hnot
  cases hnot

theorem mem_held {x : String} {c : Char} (h : c ∈ (held x).toList) : c ∈ "QF.".toList ∨ c ∈ x.toList := by
  have hheld : held x = "QF." ++ x := rfl
  rwa [hheld, toList_append, mem_append] at h

theorem isPlain_held {x : String} (hx : IsIdentifier x) : ∀ c ∈ (held x).toList, isPlain c = true := by
  intro c hc
  have hholder : "QF.".toList.all isPlain = true := by decide
  exact (mem_held hc).elim (all_eq_true.mp hholder c) fun hc => isPlain_of_isWordPart (hx c hc)

theorem trimChars_held {x : String} (hx : IsIdentifier x) :
    Text.trimChars (held x).toList = (held x).toList := by
  refine Text.trimChars_of_not_mem fun c hc hblank => ?_
  have hblanks : Text.blanks.flatten.all (fun d => !Formula.Lexeme.isWordPart d && !"QF.".toList.contains d) =
    true := by decide
  obtain ⟨hword, hholder⟩ := Bool.and_eq_true_iff.mp (all_eq_true.mp hblanks c hblank)
  rcases mem_held hc with hc | hc
  · rw [contains_iff_mem.mpr hc] at hholder
    cases hholder
  · rw [hx c hc] at hword
    cases hword

/-- **The arguments of the run** are those of the fact that do not start like the exception. -/
theorem withoutThrows_held {xs : List String} (h : ∀ x ∈ xs, IsIdentifier x) :
    withoutThrows (xs.map fun x => (held x).toList) =
      ((xs.map held).filter fun x => !Text.startsWith x "QF.throw_").map String.toList := by
  have hkeep : ∀ x ∈ xs, (!isThrow (held x).toList && !isBlankPiece (held x).toList) =
      !Text.startsWith (held x) "QF.throw_" := by
    intro x hx
    have hthrow : held "throw_" = "QF.throw_" := rfl
    have hfirst : (held x).toList = 'Q' :: ("F." ++ x).toList := by
      have hheld : held x = "QF." ++ x := rfl
      have hseam : "QF.".toList = 'Q' :: "F.".toList := by decide
      rw [hheld, toList_append, toList_append, hseam, cons_append]
    have hparen : (held x).toList.dropWhile (· == '(') = (held x).toList := by
      rw [hfirst]
      rfl
    have hblank : (held x).toList.isEmpty = false := by rw [hfirst]; rfl
    rw [isThrow, isBlankPiece, trimChars_held (h x hx), hparen, hblank, Text.startsWith, hthrow,
      Bool.not_false, Bool.and_true]
  rw [withoutThrows, filter_map, filter_map, map_map]
  exact congrArg _ (filter_congr hkeep)

namespace Specification

variable {s : Specification}

/-- The text after the fact and its first closing brace, up to the scope of the check command. -/
def remainder (s : Specification) : List Char :=
  s.assertion.toList ++ ("check".toList ++ ' ' :: ((checkName s.program).toList ++ [' ']))

theorem checkName_words (program : String) (r : List Char) :
    "check".toList ++ ' ' :: ((checkName program).toList ++ r) =
      checkMark.toList ++ ("_".toList ++ program.toList ++ r) := by
  simp [checkName, checkMark]

/-- The characters of a text, as the edits take them apart. -/
theorem toList_text_eq (s : Specification) : s.text.toList = s.opening.toList ++ (factMark.toList ++
    '\n' :: ("  ".toList ++ (s.fact.name.toList ++
      '[' :: ([','].intercalate (s.fact.args.map fun x => (held x).toList) ++
        ']' :: '\n' :: '\x7d' :: (s.remainder ++ (scopeMark.toList ++
          (' ' :: s.scopeText.toList ++ ['\n']))))))) := by
  rw [text_eq]
  simp [Call.toList_text, Call.chars, scope, remainder]

theorem toList_assertion (s : Specification) : s.assertion.toList =
    "\n\nassert ".toList ++ (checkName s.program).toList ++ [' '] ++
      '\x7b' :: ("\n  ".toList ++ s.goal.text.toList ++ "\n\x7d\n\n".toList) := by
  simp [assertion]

section Edits

variable (h : s.Named) (hid : s.program.toList.getLast? = some '0')
include h hid

/-- **After the fact there is no other.** -/
theorem rest_lacks : ¬ factMark.toList <:+: "  ".toList ++ (s.fact.name.toList ++
    '[' :: ([','].intercalate (s.fact.args.map fun x => (held x).toList) ++
      ']' :: '\n' :: '\x7d' :: (s.remainder ++ (scopeMark.toList ++
        (' ' :: s.scopeText.toList ++ ['\n']))))) := by
  have hfact : '\x7b' ∉ s.fact.text.toList := Call.not_mem h.fact rfl (by decide)
  have hgoal : '\x7b' ∉ s.goal.text.toList := Call.not_mem h.goal rfl (by decide)
  have hcheck : '\x7b' ∉ (checkName s.program).toList := checkName_not_mem h rfl
  have hscope := scopeText_not_mem h (d := '\x7b') rfl (by decide)
  -- The one brace after the fact opens the assertion, whose name ends in a digit.
  have hbefore : ¬ "fact ".toList <:+ "  ".toList ++ s.fact.text.toList ++ "\n\x7d\n\nassert ".toList ++
      (checkName s.program).toList ++ [' '] := by
    obtain ⟨t, ht⟩ := List.getLast?_eq_some_iff.mp (getLast?_checkName hid)
    rw [ht, ← append_assoc, append_assoc _ ['0']]
    intro hword
    have hend := suffix_of_suffix_length_le (suffix_append _ ['0', ' ']) hword (by decide)
    revert hend
    decide
  have hlacks := lacks_of_brace (y := "\n  ".toList ++ s.goal.text.toList ++ "\n\x7d\n\n".toList ++
    "check ".toList ++ (checkName s.program).toList ++ [' '] ++ scopeMark.toList ++ [' '] ++
    s.scopeText.toList ++ ['\n']) ?_ hbefore ?_
  · rw [remainder, toList_assertion]
    simpa [Call.toList_text, Call.chars] using hlacks
  · simp only [mem_append, not_or]
    exact ⟨⟨⟨⟨by decide, hfact⟩, by decide⟩, hcheck⟩, by decide⟩
  · simp only [mem_append, not_or]
    exact ⟨⟨⟨⟨⟨⟨⟨⟨⟨by decide, hgoal⟩, by decide⟩, by decide⟩, hcheck⟩, by decide⟩, by decide⟩, by decide⟩,
      hscope⟩, by decide⟩

theorem remainder_lacks : ¬ "for ".toList <:+: '\n' :: '\x7d' :: s.remainder := by
  have hlines : LinesLack ("for".toList ++ [' ']) (['\n'] ++ (['\x7d'] ++ s.assertion.toList)) :=
    .append (.line (s := []) (by decide) (by decide) (not_infix_unblank not_mem_nil))
      (assertion_linesLack h hid (not_infix_unblank (by decide)))
  have hcheck : ¬ "for".toList ++ [' '] <:+:
      "check".toList ++ ' ' :: ((checkName s.program).toList ++ ' ' :: []) := by
    refine not_infix_blank (by decide) (by decide) ?_
    refine not_infix_blank (checkName_not_mem h rfl) ?_ (not_infix_unblank not_mem_nil)
    rw [getLast?_checkName hid]
    decide
  have hwhole := hlines.not_infix_append hcheck
  simpa [remainder] using hwhole

/-- The run with its scope, and what comes after it up to the check command. -/
theorem edited_linesLack : LinesLack "check ".toList ('\n' :: '\x7d' :: ' ' :: (scopeMark.toList ++
    (' ' :: s.scopeText.toList) ++ s.assertion.toList)) := by
  have hmark : "check ".toList = "check".toList ++ [' '] := by decide
  have hscope : ¬ "check".toList ++ [' '] <:+: ['\x7d'] ++ ' ' :: ("for".toList ++ ' ' :: ("0".toList ++
      ' ' :: ("but".toList ++ ' ' :: s.scopeText.toList))) := by
    have hlacks := scopeText_lacks h
    rw [hmark] at hlacks
    iterate 3 refine not_infix_blank (by decide) (by decide) ?_
    exact not_infix_blank (by decide) (by decide) hlacks
  have hlines : LinesLack ("check".toList ++ [' ']) (['\n'] ++ (_ ++ s.assertion.toList)) :=
    .append (.line (s := []) (by decide) (by decide) (not_infix_unblank not_mem_nil))
      (assertion_linesLack h hid hscope)
  simpa [scopeMark] using hlines

/-- **The query of a specification over identifiers.**  The fact becomes a run of the invariant with the
scope of the check command, and the check command goes. -/
theorem query_text {owner : String} (howner : IsIdentifier owner)
    (hname : s.fact.name = "precondition_" ++ (owner ++ ("_" ++ generateInvariant)))
    {x y : String} {xs : List String} (hargs : s.fact.args = x :: y :: xs) :
    query s.text = .ok (s.opening ++ ("run \x7b  " ++ owner ++ "_object_invariant[" ++
      Text.join "," ((s.fact.args.map held).filter fun x => !Text.startsWith x "QF.throw_") ++
      "]\n\x7d " ++ s.scope) ++ s.assertion) := by
  have hplain : ∀ a ∈ (held x).toList :: (held y).toList :: xs.map (fun x => (held x).toList),
      ∀ c ∈ a, isPlain c = true := by
    have hheld : ∀ a ∈ s.fact.args.map fun x => (held x).toList, ∀ c ∈ a, isPlain c = true :=
      forall_mem_map.mpr fun x hx => isPlain_held (h.fact.args x hx)
    rwa [hargs] at hheld
  have hrun := fun r => runInvariant_eq (r := r) (opening_linesLack h) (howner.not_mem rfl) hplain
  have hbare := withoutThrows_held h.fact.args
  rw [hargs, map_cons, map_cons] at hbare
  have hlast : s.remainder.getLast? = some ' ' := by
    rw [remainder, append_cons, ← append_assoc, ← append_assoc, List.getLast?_concat]
  have hnewline : '\n' ∉ ' ' :: s.scopeText.toList := by
    rw [mem_cons, not_or]
    exact ⟨by decide, scopeText_not_mem h rfl (by decide)⟩
  have hend : (' ' :: s.scopeText.toList).getLast? = some 't' := by
    rw [List.getLast?_cons, getLast?_scopeText]
    rfl
  have hline : '\n' ∉ "_".toList ++ s.program.toList ++ [' '] ++ scopeMark.toList ++
      ' ' :: s.scopeText.toList := by
    simp only [mem_append, not_or]
    exact ⟨⟨⟨⟨by decide, h.program.not_mem rfl⟩, by decide⟩, by decide⟩, hnewline⟩
  have hjoin := joinFacts_eq (opening_linesLack h) (rest_lacks h hid)
  have hinject := injectScope_eq (remainder_lacks h hid) hlast hnewline hend
  have hdrop := dropCheck_eq (edited_linesLack h hid) hline
  rw [query, toList_text_eq, hjoin]
  dsimp only [bind, Except.bind]
  rw [hname, hargs, map_cons, map_cons, hrun]
  dsimp only
  rw [hinject]
  dsimp only
  have hcheck : '\n' :: '\x7d' :: ' ' :: (scopeMark.toList ++ (' ' :: s.scopeText.toList) ++
      (s.remainder ++ (scopeMark.toList ++ (' ' :: s.scopeText.toList ++ ['\n'])))) =
      '\n' :: '\x7d' :: ' ' :: (scopeMark.toList ++ (' ' :: s.scopeText.toList) ++ s.assertion.toList) ++
        (checkMark.toList ++ ("_".toList ++ s.program.toList ++ [' '] ++ scopeMark.toList ++
          ' ' :: s.scopeText.toList ++ ['\n'])) := by
    rw [remainder, checkName_words]
    simp only [append_assoc, cons_append]
  rw [hcheck, hdrop]
  refine congrArg Except.ok (String.toList_inj.mp ?_)
  rw [String.toList_ofList, hbare, Contract.invariantName]
  simp [Text.join, String.toList_intercalate, scope]

end Edits

end Specification

/-! ## Assembled specifications -/

theorem exists_assemble {modules : List Relational.Module} {owner program : String} {a : Frame}
    (hframe : frame? modules owner program = some a) (hnamed : ∀ m ∈ modules, m.Named) (s : Settings) :
    ∃ moduleSide programSide, moduleSide.Named ∧ programSide.Named ∧
      assemble s modules (.collect modules) owner program = .ok (a.specify s moduleSide programSide) := by
  obtain ⟨-, howner, rfl, hprogram, rfl⟩ := Frame.mem_of_frame? hframe
  obtain ⟨moduleSide, hmodule⟩ := Relational.SideIndex.exists_ofModule_of_mem howner
  obtain ⟨programSide, hside⟩ := Relational.SideIndex.exists_ofProgram_of_mem howner hprogram
  obtain ⟨m, hm, -, rfl⟩ := Relational.SideIndex.exists_of_ofModule hmodule
  obtain ⟨m', hm', p, hp, -, rfl⟩ := Relational.SideIndex.exists_of_ofProgram hside
  refine ⟨_, _, (hnamed m hm).side, ((hnamed m' hm').programs p hp).side, ?_⟩
  rw [assemble, Relational.SideIndex.complete_collect, hframe, hmodule, hside]
  rfl

section

variable {a : Frame} {owner : String} (howner : a.owner.id = owner)
  (hmethod : a.program.method = generateInvariant) (hoverload : a.program.overload = 0)
include howner hmethod hoverload

theorem Frame.preName_eq :
    a.preName = "precondition_" ++ (owner ++ ("_" ++ generateInvariant)) := by
  rw [preName, contractName, howner, hmethod, if_pos hoverload, String.append_empty,
    String.append_assoc]

/-- **The query of the program that asks for an object invariant.** -/
theorem Frame.query_specify (h : a.Named)
    (hid : a.program.id = Contract.programId owner generateInvariant 0) (s : Settings)
    {moduleSide programSide : Side} (hmodule : moduleSide.Named) (hprogram : programSide.Named) :
    query (a.specify s moduleSide programSide).text =
      .ok ((a.specify s moduleSide programSide).opening ++
        ("run \x7b  " ++ owner ++ "_object_invariant[" ++
          Text.join "," ((a.preArgs.map held).filter fun x => !Text.startsWith x "QF.throw_") ++
          "]\n\x7d " ++ (a.specify s moduleSide programSide).scope) ++
        (a.specify s moduleSide programSide).assertion) := by
  have hargs : (a.specify s moduleSide programSide).fact.args =
      versioned "throw" 0 :: versioned "thiz" 0 :: (a.program.params.map (fun p => versioned p.name 0) ++
        a.fields.map (fun f => versioned f.var.name 0) ++ a.program.skolems.map (·.name)) := by
    simp only [specify, preArgs, append_assoc, cons_append, nil_append]
  have hlast : (a.specify s moduleSide programSide).program.toList.getLast? = some '0' := by
    have htext : a.program.id.toList =
        (owner ++ "_" ++ generateInvariant ++ "_").toList ++ ['0'] := by
      rw [hid, Contract.programId, toList_append]
      rfl
    exact htext ▸ List.getLast?_concat
  exact Specification.query_text (h.specify s hmodule hprogram) hlast (howner ▸ h.owner.id)
    (preName_eq howner hmethod hoverload) hargs

end

/-- **The query changes the fact and the check command, and nothing else.**  Of the program that asks
for the invariant of a class, over identifiers, there is a specification.  Its fact becomes the run of
the object invariant over the same arguments without those that start like the exception, its check
command goes, and the scope of the command, which ends with its line, goes behind the run. -/
theorem assemble_query {modules : List Relational.Module} (hnamed : ∀ m ∈ modules, m.Named)
    {owner : String} {a : Frame}
    (hframe : frame? modules owner (Contract.programId owner MethodName.generateInvariant 0) = some a)
    (hmethod : a.program.method = MethodName.generateInvariant) (hoverload : a.program.overload = 0)
    (s : Settings) :
    ∃ spec, assemble s modules (.collect modules) owner
        (Contract.programId owner MethodName.generateInvariant 0) = .ok spec ∧
      '\n' ∉ spec.scope.toList ∧
      spec.text = spec.opening ++
        ("fact \x7b\n  precondition_" ++ owner ++ "_generateInvariant[" ++
          Text.join "," (a.preArgs.map held) ++ "]\n\x7d") ++
        spec.assertion ++
        ("check check_" ++ owner ++ "_generateInvariant_0 " ++ spec.scope ++ "\n") ∧
      query spec.text = .ok (spec.opening ++
        ("run \x7b  " ++ owner ++ "_object_invariant[" ++
          Text.join "," ((a.preArgs.map held).filter fun x => !Text.startsWith x "QF.throw_") ++
          "]\n\x7d " ++ spec.scope) ++
        spec.assertion) := by
  obtain ⟨moduleSide, programSide, hmodule, hprogram, hassemble⟩ := exists_assemble hframe hnamed s
  obtain ⟨-, -, howner, -, hid⟩ := Frame.mem_of_frame? hframe
  have hframed := Frame.named_of_frame? hframe hnamed
  have hspec := hframed.specify s hmodule hprogram
  have hname := Frame.preName_eq howner hmethod hoverload
  refine ⟨_, hassemble, ?_, ?_, ?_⟩
  · rw [Specification.scope, String.toList_append, List.mem_append, not_or]
    exact ⟨by decide, Specification.scopeText_not_mem hspec rfl (by decide)⟩
  · have hfact : (a.specify s moduleSide programSide).fact.text =
        a.preName ++ "[" ++ Text.join "," (a.preArgs.map held) ++ "]" := rfl
    have hcheck : checkName (a.specify s moduleSide programSide).program =
        "check_" ++ Contract.programId owner MethodName.generateInvariant 0 := congrArg checkName hid
    rw [Specification.text_eq, hfact, hname, hcheck, Contract.programId]
    refine String.toList_inj.mp ?_
    simp [factMark, MethodName.generateInvariant]
  · exact Frame.query_specify howner hmethod hoverload hframed hid s hmodule hprogram

/-- A class of linked cells with the program that asks for its invariant. -/
def cell : Relational.Module where
  id := "Cell"
  className := "Cell"
  fields := [⟨"Cell_next", .ref "Cell"⟩, ⟨"Cell_size", .int⟩]
  invariant := ⟨"Cell_object_invariant", [⟨"thiz", .ref "Cell"⟩],
    .binary .ge (.join (.ident "thiz") (.ident "Cell_size")) (.int 0)⟩
  programs := [{
    id := "Cell_generateInvariant_0"
    owner := "Cell"
    method := "generateInvariant"
    overload := 0
    body := [] }]

theorem named_cell : cell.Named where
  id := by decide
  fields := by
    simp only [cell, forall_mem_cons]
    exact ⟨⟨by decide, (by decide : IsIdentifier "Cell")⟩, ⟨by decide, trivial⟩, forall_mem_nil _⟩
  invariantName := by decide
  invariant := Formula.named_binary.mpr ⟨by decide, by decide⟩
  side := ⟨forall_mem_nil _, forall_mem_nil _⟩
  programs := forall_mem_singleton.mpr
    ⟨by decide, by decide, forall_mem_nil _, forall_mem_nil _, by simp, Formula.named_truth,
      Formula.named_truth, ⟨forall_mem_nil _, forall_mem_nil _⟩, forall_mem_nil _, trivial⟩

/-- The query of a class with two fields. -/
theorem assemble_query_cell : ∃ spec,
    assemble {} [cell] (.collect [cell]) "Cell" "Cell_generateInvariant_0" = .ok spec ∧
      query spec.text = .ok (spec.opening ++
        ("run \x7b  Cell_object_invariant[QF.thiz_0,QF.Cell_next_0,QF.Cell_size_0]\n\x7d " ++ spec.scope) ++
        spec.assertion) := by
  have hframe : frame? [cell] "Cell" (Contract.programId "Cell" MethodName.generateInvariant 0) =
      some ⟨[cell], cell, cell.programs.head (by decide)⟩ := rfl
  obtain ⟨spec, hassemble, -, -, hquery⟩ :=
    assemble_query (List.forall_mem_singleton.mpr named_cell) hframe rfl rfl {}
  have hrun : "run \x7b  " ++ "Cell" ++ "_object_invariant[" ++ Text.join ","
      (((Frame.mk [cell] cell (cell.programs.head (by decide))).preArgs.map held).filter fun x =>
        !Text.startsWith x "QF.throw_") ++ "]\n\x7d " =
      "run \x7b  Cell_object_invariant[QF.thiz_0,QF.Cell_next_0,QF.Cell_size_0]\n\x7d " := by decide
  exact ⟨spec, hassemble, hquery.trans (by rw [← hrun])⟩

end Relspec.Spec
