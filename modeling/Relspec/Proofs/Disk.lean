import Mathlib.Data.List.Basic
import Mathlib.Data.List.Infix
import Relspec.Disk
import Relspec.Proofs.Failing

/-!
# Proofs/Disk — where files go, and what stays of them

The place of a path ends in the last name of the path, so that files with different extensions are
different files.  Writing and removing change one place; making directories changes none that is taken.

* `Path.Ends` — the last name of a path, `Path.ends_join` — that of a name in a directory;
* `Path.exists_place` — the place of a path ends in its last name;
* `Disk.write_spec`, `Disk.remove_spec`, `Disk.makeDirs_keeps` — what the operations do to every place.
-/

namespace Relspec

open List

/-! ## Pieces of a text -/

namespace Text

theorem splitChars_of_not_mem {c : Char} : ∀ {s : List Char}, c ∉ s → splitChars c s = [s]
  | [], _ => rfl
  | d :: s, h => by
    obtain ⟨hd, hs⟩ := not_or.mp (mt mem_cons.mpr h)
    rw [splitChars, if_neg (Ne.symm hd), splitChars_of_not_mem hs]

theorem splitChars_ne_nil (c : Char) : ∀ s : List Char, splitChars c s ≠ []
  | [] => cons_ne_nil _ _
  | d :: s => by
    rw [splitChars]
    split
    · exact cons_ne_nil _ _
    · split
      · exact cons_ne_nil _ _
      · exact cons_ne_nil _ _

/-- The pieces before and after an occurrence. -/
theorem splitChars_append (c : Char) (t : List Char) : ∀ s : List Char,
    splitChars c (s ++ c :: t) = splitChars c s ++ splitChars c t
  | [] => by
    rw [nil_append, splitChars.eq_2, if_pos rfl]
    rfl
  | d :: s => by
    obtain ⟨piece, pieces, hs⟩ := exists_cons_of_ne_nil (splitChars_ne_nil c s)
    rw [cons_append, splitChars, splitChars, splitChars_append c t s, hs]
    split
    · rfl
    · rfl

end Text

namespace Path

variable {n path ext : String}

/-! ## The last name of a path -/

/-- **A path that ends in the name `n`**, after a slash or from the start. -/
def Ends (path n : String) : Prop := path = n ∨ ∃ dir, path = dir ++ "/" ++ n

/-- A name that a directory can have an entry of. -/
structure IsName (n : String) : Prop where
  slash : '/' ∉ n.toList
  nonempty : n ≠ ""
  dot : n ≠ "."
  dots : n ≠ ".."

theorem follow_cons_of_skip (h : n = "" ∨ n = ".") (p ns : List String) :
    follow p (n :: ns) = follow p ns := by
  rw [follow.eq_def]
  exact if_pos h

/-- What `..` does to a place. -/
theorem follow_cons_dots (p ns : List String) :
    follow p (".." :: ns) = follow (if p.headD ".." = ".." then ".." :: p else p.tail) ns := by
  rw [follow.eq_def]
  cases p with
  | nil => rfl
  | cons up rest =>
    by_cases hup : up = ".."
    · simp [hup]
    · simp [hup]

theorem follow_cons_of_name (h : ¬ (n = "" ∨ n = ".")) (hdots : n ≠ "..") (p ns : List String) :
    follow p (n :: ns) = follow (n :: p) ns := by
  rw [follow.eq_def]
  exact (if_neg h).trans (if_neg hdots)

theorem follow_append (ys : List String) : ∀ (xs p : List String),
    follow p (xs ++ ys) = follow (follow p xs) ys
  | [], p => by rw [nil_append, follow]
  | n :: xs, p => by
    rw [cons_append]
    by_cases hskip : n = "" ∨ n = "."
    · rw [follow_cons_of_skip hskip, follow_cons_of_skip hskip, follow_append ys xs]
    · by_cases hdots : n = ".."
      · rw [hdots, follow_cons_dots, follow_cons_dots, follow_append ys xs]
      · rw [follow_cons_of_name hskip hdots, follow_cons_of_name hskip hdots, follow_append ys xs]

theorem split_of_ends (h : Ends path n) (hn : IsName n) : ∃ init, Text.split path '/' = init ++ [n] := by
  have hone := Text.splitChars_of_not_mem hn.slash
  rcases h with rfl | ⟨dir, rfl⟩
  · exact ⟨[], by rw [Text.split, hone, map_singleton, String.ofList_toList, nil_append]⟩
  · refine ⟨(Text.splitChars '/' dir.toList).map String.ofList, ?_⟩
    have hlist : (dir ++ "/" ++ n).toList = dir.toList ++ '/' :: n.toList := by simp
    rw [Text.split, hlist, Text.splitChars_append, hone, map_append, map_singleton,
      String.ofList_toList]

/-- **The place of a path ends in the last name of the path.** -/
theorem exists_place (h : Ends path n) (hn : IsName n) : ∃ init, place path = init ++ [n] := by
  obtain ⟨init, hsplit⟩ := split_of_ends h hn
  have hfollow : (follow [] (Text.split path '/')).reverse = (follow [] init).reverse ++ [n] := by
    rw [hsplit, follow_append, follow_cons_of_name (not_or.mpr ⟨hn.nonempty, hn.dot⟩) hn.dots, follow,
      reverse_cons]
  rw [place, hfollow]
  split
  · rw [dropWhile_append]
    split
    · exact ⟨[root], by simp [hn.dots]⟩
    · exact ⟨root :: _, rfl⟩
  · exact ⟨_, rfl⟩

theorem ends_intercalate (n : String) : ∀ init : List String, Ends (Text.join "/" (init ++ [n])) n
  | [] => .inl (String.toList_inj.mp (by simp [Text.join]))
  | m :: init => by
    have htail : Text.join "/" (m :: (init ++ [n])) = m ++ "/" ++ Text.join "/" (init ++ [n]) := by
      obtain ⟨x, xs, hx⟩ := exists_cons_of_ne_nil (append_ne_nil_of_right_ne_nil init
        (cons_ne_nil n []))
      rw [hx]
      exact String.toList_inj.mp (by
        simp [Text.join, String.toList_intercalate])
    rw [cons_append, htail]
    rcases ends_intercalate n init with heq | ⟨dir, heq⟩
    · exact .inr ⟨m, by rw [heq]⟩
    · exact .inr ⟨m ++ "/" ++ dir, by rw [heq]; simp only [String.append_assoc]⟩

/-- The text of a place ends in its last name. -/
theorem ends_text (init : List String) (hn : IsName n) : Ends (text (init ++ [n])) n := by
  have hroot : n ≠ root := fun h => hn.slash (by rw [h]; decide)
  cases init with
  | nil =>
    rw [nil_append, text, if_neg hroot]
    exact ends_intercalate n []
  | cons m init =>
    rw [cons_append, text]
    split
    · rcases ends_intercalate n init with heq | ⟨dir, heq⟩
      · exact .inr ⟨"", by rw [heq]; rfl⟩
      · exact .inr ⟨root ++ dir, by rw [heq]; simp only [String.append_assoc]⟩
    · exact ends_intercalate n (m :: init)

theorem ends_clean (h : Ends path n) (hn : IsName n) : Ends (clean path) n := by
  obtain ⟨init, hplace⟩ := exists_place h hn
  rw [clean, hplace]
  exact ends_text init hn

/-- **A path that is put together ends in its last name.** -/
theorem ends_join (dir : String) (h : Ends path n) (hn : IsName n) : Ends (join dir path) n := by
  have hpath : path ≠ "" := by
    rcases h with rfl | ⟨s, rfl⟩
    · exact hn.nonempty
    · exact fun heq => absurd (congrArg String.toList heq) (by simp)
  rw [join, if_neg hpath]
  split
  · exact ends_clean h hn
  · refine ends_clean (.inr ?_) hn
    rcases h with rfl | ⟨s, rfl⟩
    · exact ⟨dir, rfl⟩
    · exact ⟨dir ++ "/" ++ s, by simp only [String.append_assoc]⟩

/-- Different names in one directory are in different places. -/
theorem place_join_inj {dir m : String} (hm : IsName m) (hn : IsName n) :
    place (join dir m) = place (join dir n) ↔ m = n := by
  refine ⟨fun h => ?_, fun h => h ▸ rfl⟩
  obtain ⟨init, hplace⟩ := exists_place (ends_join dir (.inl rfl) hm) hm
  obtain ⟨init', hplace'⟩ := exists_place (ends_join dir (.inl rfl) hn) hn
  rw [hplace, hplace'] at h
  exact singleton_inj.mp (append_inj' h rfl).2

/-! ## Extensions -/

/-- **A path with an extension**: it ends in a name that does. -/
def HasExtension (path ext : String) : Prop := ∃ n, IsName n ∧ Ends path n ∧ ext.toList <:+ n.toList

/-- A text without slashes that ends in an extension is a name. -/
theorem isName_of_suffix (h : ext.toList <:+ n.toList) (hslash : '/' ∉ n.toList)
    (hlength : 2 < ext.toList.length) : IsName n := by
  have hne : ∀ m : String, m.toList.length ≤ 2 → n ≠ m := by
    rintro m hm rfl
    have := h.length_le
    omega
  exact ⟨hslash, hne "" (by decide), hne "." (by decide), hne ".." (by decide)⟩

/-- A text that ends in an extension has it: the extension is part of the last name. -/
theorem hasExtension_of_suffix (h : ext.toList <:+ path.toList) (hslash : '/' ∉ ext.toList)
    (hlength : 2 < ext.toList.length) : HasExtension path ext := by
  obtain ⟨s, hs⟩ := h
  have hname : ∀ t : List Char, '/' ∉ t → IsName (String.ofList (t ++ ext.toList)) := by
    intro t ht
    refine isName_of_suffix ?_ (by simpa using ⟨ht, hslash⟩) hlength
    rw [String.toList_ofList]
    exact suffix_append _ _
  by_cases hmem : '/' ∈ s
  · -- The last name starts after the last slash.
    obtain ⟨t, dir, hrev, ht⟩ := eq_append_cons_of_mem (mem_reverse.mpr hmem)
    have hsplit : s = dir.reverse ++ '/' :: t.reverse := by
      rw [← reverse_reverse s, hrev]
      simp
    refine ⟨_, hname t.reverse (by simpa using ht), .inr ⟨String.ofList dir.reverse, ?_⟩, ?_⟩
    · refine String.toList_inj.mp ?_
      simp [← hs, hsplit]
    · rw [String.toList_ofList]
      exact suffix_append _ _
  · refine ⟨_, hname s hmem, .inl ?_, ?_⟩
    · rw [hs, String.ofList_toList]
    · rw [String.toList_ofList]
      exact suffix_append _ _

theorem HasExtension.join (h : HasExtension path ext) (dir : String) :
    HasExtension (Path.join dir path) ext := by
  obtain ⟨n, hn, hends, hext⟩ := h
  exact ⟨n, hn, ends_join dir hends hn, hext⟩

/-- **Files with different extensions are different files.** -/
theorem HasExtension.place_ne {path' ext' : String} (h : HasExtension path ext)
    (h' : HasExtension path' ext') (hlast : ext.toList.getLast? ≠ ext'.toList.getLast?)
    (hne : ext.toList ≠ []) (hne' : ext'.toList ≠ []) : place path ≠ place path' := by
  obtain ⟨n, hn, hends, hext⟩ := h
  obtain ⟨n', hn', hends', hext'⟩ := h'
  obtain ⟨init, hplace⟩ := exists_place hends hn
  obtain ⟨init', hplace'⟩ := exists_place hends' hn'
  rw [hplace, hplace']
  intro heq
  obtain ⟨-, hnn⟩ := append_inj' heq rfl
  obtain rfl : n = n' := singleton_inj.mp hnn
  refine hlast ?_
  obtain ⟨s, hs⟩ := hext
  obtain ⟨s', hs'⟩ := hext'
  rw [← List.getLast?_append_of_ne_nil s hne, ← List.getLast?_append_of_ne_nil s' hne', hs, hs']

end Path

namespace Disk

variable {d d' : Disk} {path content : String}
variable {p q : List String}

/-! ## Places -/

/-- A place that is always there. -/
def IsTop (place : List String) : Prop := place = [] ∨ place = [Path.root]

theorem entry?_of_isTop (d : Disk) (h : IsTop p) : d.entry? p = some .dir := if_pos h

theorem entry?_of_not_isTop (d : Disk) (h : ¬ IsTop p) : d.entry? p = d.entries.lookup p := if_neg h

theorem entry?_put_self (d : Disk) (h : ¬ IsTop p) (e : Entry) : Disk.entry? (d.put p e) p = some e := by
  rw [entry?_of_not_isTop _ h, put, lookup_cons_self]

theorem lookup_filter_ne (h : q ≠ p) : ∀ l : List (List String × Entry),
    (l.filter (·.1 != p)).lookup q = l.lookup q
  | [] => rfl
  | (r, e) :: l => by
    have ih := lookup_filter_ne h l
    by_cases hr : r = p
    · have hqr : (q == r) = false := by simpa [hr] using h
      rw [filter_cons_of_neg (by simpa using hr), lookup_cons, hqr]
      exact ih
    · rw [filter_cons_of_pos (by simpa using hr), lookup_cons, lookup_cons, ih]

theorem lookup_filter_self (p : List String) : ∀ l : List (List String × Entry),
    (l.filter (·.1 != p)).lookup p = none
  | [] => rfl
  | (r, e) :: l => by
    have ih := lookup_filter_self p l
    by_cases hr : r = p
    · rw [filter_cons_of_neg (by simpa using hr)]
      exact ih
    · have hpr : (p == r) = false := by simpa using Ne.symm hr
      rw [filter_cons_of_pos (by simpa using hr), lookup_cons, hpr]
      exact ih

theorem entry?_put_of_ne (d : Disk) (h : q ≠ p) (e : Entry) : Disk.entry? (d.put p e) q = d.entry? q := by
  have hqp : (q == p) = false := by simpa using h
  have hlookup : (d.put p e).entries.lookup q = d.entries.lookup q := by
    rw [put, lookup_cons, hqp]
    exact lookup_filter_ne h d.entries
  rw [ entry?, entry?, hlookup]

/-! ## Operations -/

/-- A file stands at a place. -/
def HasFile (d : Disk) (p : List String) (content : String) : Prop := d.entry? p = some (.file content)

theorem read_eq_ok (h : path ≠ "") :
    d.read path = .ok content ↔ d.HasFile (Path.place path) content := by
  rw [read, if_neg h, HasFile]
  split
  · next c hentry => simp [hentry]
  · next hentry => simp [hentry]
  · next hentry => simp [hentry]

/-- **Writing a file changes its place only.** -/
theorem write_spec (h : d.write path content = .ok d') :
    d'.HasFile (Path.place path) content ∧ ∀ q, q ≠ Path.place path → d'.entry? q = d.entry? q := by
  have hput : ¬ IsTop (Path.place path) ∧ d' = d.put (Path.place path) (.file content) := by
    rw [write] at h
    split at h
    · cases h
    · simp only at h
      by_cases htop : IsTop (Path.place path)
      · rw [entry?_of_isTop d htop] at h
        cases h
      · refine ⟨htop, ?_⟩
        split at h
        · cases h
        · exact (Except.ok.inj h).symm
        · split at h
          · exact (Except.ok.inj h).symm
          · cases h
  obtain ⟨htop, rfl⟩ := hput
  exact ⟨entry?_put_self d htop _, fun q hq => entry?_put_of_ne d hq _⟩

/-- **Removing a file changes its place only.** -/
theorem remove_spec (h : d.remove path = .ok d') :
    d'.entry? (Path.place path) = none ∧ ∀ q, q ≠ Path.place path → d'.entry? q = d.entry? q := by
  have hfilter : ¬ IsTop (Path.place path) ∧ d' = ⟨d.entries.filter (·.1 != Path.place path)⟩ := by
    rw [remove] at h
    by_cases htop : IsTop (Path.place path)
    · rw [entry?_of_isTop d htop] at h
      cases h
    · refine ⟨htop, ?_⟩
      split at h
      · exact (Except.ok.inj h).symm
      · cases h
      · cases h
  obtain ⟨htop, rfl⟩ := hfilter
  refine ⟨?_, fun q hq => ?_⟩
  · rw [entry?_of_not_isTop _ htop]
    exact lookup_filter_self _ _
  · rw [ entry?, entry?, lookup_filter_ne hq]

theorem makeEach_keeps : ∀ {ps : List (List String × String)} {d d' : Disk}, d.makeEach ps = .ok d' →
    ∀ {q content}, d.HasFile q content → d'.HasFile q content
  | [], _, _, h, _, _, hfile => Except.ok.inj h ▸ hfile
  | (p, name) :: ps, d, d', h, q, content, hfile => by
    rw [makeEach] at h
    split at h
    · exact makeEach_keeps h hfile
    · cases h
    · next hnone =>
      refine makeEach_keeps h ?_
      have hqp : q ≠ p := by
        rintro rfl
        rw [HasFile, hnone] at hfile
        cases hfile
      rw [HasFile, entry?_put_of_ne d hqp]
      exact hfile

/-- **Making directories keeps every file.** -/
theorem makeDirs_keeps (h : d.makeDirs path = .ok d') (hfile : d.HasFile q content) :
    d'.HasFile q content := by
  rw [makeDirs] at h
  split at h
  · cases h
  · exact makeEach_keeps h hfile

/-! ## Operations that succeed -/

/-- **A directory with no directories in it.** -/
structure IsFlat (d : Disk) (dir : List String) : Prop where
  isDir : d.entry? dir = some .dir
  noDir : ∀ n, d.entry? (dir ++ [n]) ≠ some .dir

/-- A file can be written into a directory with no directories in it, and the directory stays so. -/
theorem IsFlat.exists_write {dir : List String} {n : String} (h : d.IsFlat dir) (hpath : path ≠ "")
    (hplace : Path.place path = dir ++ [n]) (content : String) :
    ∃ d', d.write path content = .ok d' ∧ d'.IsFlat dir := by
  have hwrite : d.write path content = .ok (d.put (Path.place path) (.file content)) := by
    have hdir : d.entry? (Path.place path).dropLast = some .dir := by
      rw [hplace, dropLast_concat]
      exact h.isDir
    rw [write, if_neg hpath]
    simp only [hdir, if_true]
    split
    · next hentry => exact absurd (hplace ▸ hentry) (h.noDir n)
    · rfl
    · rfl
  obtain ⟨hfile, hothers⟩ := write_spec hwrite
  refine ⟨_, hwrite, ⟨?_, fun m => ?_⟩⟩
  · rw [hothers dir (by simp [hplace]), h.isDir]
  · by_cases hm : dir ++ [m] = Path.place path
    · rw [hm, hfile]
      exact fun heq => nomatch Option.some.inj heq
    · rw [hothers _ hm]
      exact h.noDir m

theorem exists_remove (h : d.HasFile (Path.place path) content) : ∃ d', d.remove path = .ok d' := by
  rw [HasFile] at h
  rw [remove, h]
  exact ⟨_, rfl⟩

theorem makeEach_of_isDir : ∀ {ps : List (List String × String)},
    (∀ p ∈ ps, d.entry? p.1 = some .dir) → d.makeEach ps = .ok d
  | [], _ => rfl
  | (p, name) :: ps, h => by
    obtain ⟨hp, hps⟩ := forall_mem_cons.mp h
    rw [makeEach, hp]
    exact makeEach_of_isDir hps

end Disk

/-! ## Computations on the disk -/

namespace OnDisk

variable {p : List String} {content : String}

section Change

variable {op : Disk → Except String Disk} {fault : String → Fault} {d d' : Disk}

theorem run_change_eq_ok : (change op fault).run.run d = (.ok (), d') ↔ op d = .ok d' := by
  have hget : (get : OnDisk Disk).run.run d = (.ok d, d) := rfl
  rw [change, run_bind_of_ok hget]
  cases op d with
  | ok d₁ => exact ⟨fun h => congrArg Except.ok (Prod.mk.inj h).2, fun h => Except.ok.inj h ▸ rfl⟩
  | error cause => exact ⟨fun h => (nomatch (Prod.mk.inj h).1), fun h => (nomatch h)⟩

theorem change_preserves {P : Disk → Prop} (h : ∀ d d', op d = .ok d' → P d → P d') :
    Preserves P (change op fault) := by
  intro d hd
  have hget : (get : OnDisk Disk).run.run d = (.ok d, d) := rfl
  rw [change, run_bind_of_ok hget]
  cases hop : op d with
  | ok d' => exact h d d' hop hd
  | error cause => exact hd

theorem run_writeFile_eq_ok {path text : String} :
    (writeFile path text).run.run d = (.ok (), d') ↔ d.write path text = .ok d' := run_change_eq_ok

theorem run_createDir_eq_ok {path : String} :
    (createDir path).run.run d = (.ok (), d') ↔ d.makeDirs path = .ok d' := run_change_eq_ok

theorem run_removeFile_eq_ok {path : String} :
    (removeFile path).run.run d = (.ok (), d') ↔ d.remove path = .ok d' := run_change_eq_ok

end Change

theorem run_readFile_of_read {path text : String} {d : Disk} (h : d.read path = .ok text) :
    (readFile path).run.run d = (.ok text, d) := by
  have hget : (get : OnDisk Disk).run.run d = (.ok d, d) := rfl
  rw [readFile, run_bind_of_ok hget, h]
  rfl

theorem createDir_preserves (path : String) :
    Preserves (fun d : Disk => d.HasFile p content) (createDir path) :=
  @change_preserves (·.makeDirs path) (.file "create" path) _ fun _ _ h hd =>
    Disk.makeDirs_keeps h hd

theorem writeFile_preserves {path : String} (h : Path.place path ≠ p) (text : String) :
    Preserves (fun d : Disk => d.HasFile p content) (writeFile path text) :=
  @change_preserves (·.write path text) (.file "write" path) _ fun _ _ hwrite hd =>
    ((Disk.write_spec hwrite).2 p h.symm).trans hd

end OnDisk

end Relspec
