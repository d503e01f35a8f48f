import Mathlib.Data.List.Basic
import Tapecode.FileTree
import Tapecode.Session

/-!
# Which paths read which files

`FileTree.Leads` says to which directory some names lead, one constructor for each kind of name. A path
reads a file exactly if all its names but the last lead to a directory in which the last one is a file
(`FileTree.read_eq_ok_iff`), and otherwise it fails with one of four errors
(`FileTree.read_error_mem`). A listed file that has no other file above it is read by the path that its
own names make, from the root or from the working directory (`FileTree.read_listed`,
`FileTree.read_listed_of_working`).

`Session.start_read` says what a session makes of a path.
-/

namespace Tapecode

namespace FileTree

/-- A name that stands for an entry of a directory. -/
structure IsEntry (name : String) : Prop where
  ne_empty : name ≠ ""
  ne_dot : name ≠ "."
  ne_dots : name ≠ ".."
  size_le : name.utf8ByteSize ≤ longestName

/-- Some names lead from one directory to another. -/
inductive Leads (t : FileTree) : List String → List String → List String → Prop
  /-- No name is left. -/
  | done (here : List String) : Leads t here [] here
  /-- Empty names and single dots stay. -/
  | stay {here there rest : List String} {name : String} (hname : name = "" ∨ name = ".")
      (h : Leads t here rest there) : Leads t here (name :: rest) there
  /-- Two dots go to the parent. -/
  | up {here there rest : List String} (h : Leads t here.dropLast rest there) :
      Leads t here (".." :: rest) there
  /-- Any other name goes to the directory of that name. -/
  | down {here there rest : List String} {name : String} (hname : IsEntry name)
      (hnode : t.node? (here ++ [name]) = some .directory)
      (h : Leads t (here ++ [name]) rest there) : Leads t here (name :: rest) there

variable {t : FileTree} {here there names : List String} {name : String} {contents : List UInt8}

/-! ## One name -/

theorem node?_eq_file_iff : t.node? names = some (.file contents) ↔
    t.files.lookup names = some contents := by
  rw [node?]
  cases t.files.lookup names with
  | some contents' => simp
  | none =>
    simp only
    split <;> simp

theorem walk_stay (hname : name = "" ∨ name = ".") (rest : List String) :
    t.walk here (name :: rest) = t.walk here rest := by
  rw [walk, if_pos hname]

theorem walk_up (rest : List String) : t.walk here (".." :: rest) = t.walk here.dropLast rest := by
  rw [walk, if_neg (by decide), if_pos rfl]

theorem walk_of_eq_none (hname : IsEntry name) (h : t.node? (here ++ [name]) = none)
    (rest : List String) : t.walk here (name :: rest) = .error .notFound := by
  simp only [walk, hname.ne_empty, hname.ne_dot, hname.ne_dots, Nat.not_lt.mpr hname.size_le, h,
    or_self, if_false]

theorem walk_of_eq_directory (hname : IsEntry name)
    (h : t.node? (here ++ [name]) = some .directory) (rest : List String) :
    t.walk here (name :: rest) = t.walk (here ++ [name]) rest := by
  simp only [walk, hname.ne_empty, hname.ne_dot, hname.ne_dots, Nat.not_lt.mpr hname.size_le, h,
    or_self, if_false]

theorem walk_of_eq_file (hname : IsEntry name)
    (h : t.node? (here ++ [name]) = some (.file contents)) (rest : List String) :
    t.walk here (name :: rest) = if rest = [] then .ok contents else .error .notDirectory := by
  simp only [walk, hname.ne_empty, hname.ne_dot, hname.ne_dots, Nat.not_lt.mpr hname.size_le, h,
    or_self, if_false, List.isEmpty_iff]

theorem walk_of_long (hstay : ¬(name = "" ∨ name = ".")) (hup : name ≠ "..")
    (hlong : longestName < name.utf8ByteSize) (rest : List String) :
    t.walk here (name :: rest) = .error .nameTooLong := by
  rw [walk, if_neg hstay, if_neg hup, if_pos hlong]

/-- What a name is: one that stays, two dots, one that is too long, or an entry. -/
theorem name_cases (name : String) :
    (name = "" ∨ name = ".") ∨ name = ".." ∨
      (¬(name = "" ∨ name = ".") ∧ name ≠ ".." ∧ longestName < name.utf8ByteSize) ∨
      IsEntry name := by
  by_cases hstay : name = "" ∨ name = "."
  · exact .inl hstay
  by_cases hup : name = ".."
  · exact .inr (.inl hup)
  by_cases hlong : longestName < name.utf8ByteSize
  · exact .inr (.inr (.inl ⟨hstay, hup, hlong⟩))
  · obtain ⟨hempty, hdot⟩ := not_or.mp hstay
    exact .inr (.inr (.inr ⟨hempty, hdot, hup, Nat.not_lt.mp hlong⟩))

/-! ## Whole paths -/

/-- **Names that lead to a directory can be left out.** -/
theorem walk_of_leads (h : t.Leads here names there) (rest : List String) :
    t.walk here (names ++ rest) = t.walk there rest := by
  induction h with
  | done here => rfl
  | stay hname _ ih => rw [List.cons_append, walk_stay hname, ih]
  | up _ ih => rw [List.cons_append, walk_up, ih]
  | down hname hnode _ ih => rw [List.cons_append, walk_of_eq_directory hname hnode, ih]

/-- **A file is reached exactly if** the names before the last lead to its directory. -/
theorem walk_eq_ok_iff : t.walk here names = .ok contents ↔
    ∃ before name there, names = before ++ [name] ∧ t.Leads here before there ∧ IsEntry name ∧
      t.files.lookup (there ++ [name]) = some contents := by
  constructor
  · intro h
    induction names generalizing here with
    | nil => cases h
    | cons name rest ih =>
      -- the walk goes on with the rest, from some directory
      have hcons {next : List String} (hwalk : t.walk next rest = .ok contents)
          (hleads : ∀ {before there}, t.Leads next before there →
            t.Leads here (name :: before) there) :
          ∃ before last there, name :: rest = before ++ [last] ∧ t.Leads here before there ∧
            IsEntry last ∧ t.files.lookup (there ++ [last]) = some contents := by
        obtain ⟨before, last, there, rfl, hbefore, hlast, hfile⟩ := ih hwalk
        exact ⟨name :: before, last, there, rfl, hleads hbefore, hlast, hfile⟩
      rcases name_cases name with hname | rfl | ⟨hstay, hup, hlong⟩ | hname
      · rw [walk_stay hname] at h
        exact hcons h (.stay hname)
      · rw [walk_up] at h
        exact hcons h .up
      · rw [walk_of_long hstay hup hlong] at h
        cases h
      · rcases hnode : t.node? (here ++ [name]) with _ | contents' | _
        · rw [walk_of_eq_none hname hnode] at h
          cases h
        · rw [walk_of_eq_file hname hnode] at h
          by_cases hrest : rest = []
          · rw [if_pos hrest] at h
            obtain rfl := Except.ok.inj h
            exact ⟨[], name, here, by rw [hrest]; rfl, .done here, hname,
              node?_eq_file_iff.mp hnode⟩
          · rw [if_neg hrest] at h
            cases h
        · rw [walk_of_eq_directory hname hnode] at h
          exact hcons h (.down hname hnode)
  · rintro ⟨before, name, there, rfl, hleads, hname, hfile⟩
    rw [walk_of_leads hleads, walk_of_eq_file hname (node?_eq_file_iff.mpr hfile), if_pos rfl]

/-- **Which paths read which files.** -/
theorem read_eq_ok_iff {path : String} : t.read path = .ok contents ↔
    path.utf8ByteSize ≤ longestPath ∧
      ∃ before name there, namesOf path = before ++ [name] ∧
        t.Leads (t.startOf path) before there ∧ IsEntry name ∧
        t.files.lookup (there ++ [name]) = some contents := by
  rw [read]
  split
  · rename_i hlong
    simp [Nat.not_le.mpr hlong]
  · rename_i hshort
    rw [walk_eq_ok_iff, and_iff_right (Nat.not_lt.mp hshort)]

/-- The errors with which a path can fail. -/
def pathErrors : List SystemError :=
  [.notFound, .notDirectory, .isDirectory, .nameTooLong]

theorem walk_error_mem {e : SystemError} (h : t.walk here names = .error e) : e ∈ pathErrors := by
  induction names generalizing here with
  | nil =>
    obtain rfl := Except.error.inj h
    simp [pathErrors]
  | cons name rest ih =>
    rcases name_cases name with hname | rfl | ⟨hstay, hup, hlong⟩ | hname
    · exact ih (walk_stay hname rest ▸ h)
    · exact ih (walk_up rest ▸ h)
    · rw [walk_of_long hstay hup hlong] at h
      obtain rfl := Except.error.inj h
      simp [pathErrors]
    · rcases hnode : t.node? (here ++ [name]) with _ | contents | _
      · rw [walk_of_eq_none hname hnode] at h
        obtain rfl := Except.error.inj h
        simp [pathErrors]
      · rw [walk_of_eq_file hname hnode] at h
        split at h
        · cases h
        · obtain rfl := Except.error.inj h
          simp [pathErrors]
      · rw [walk_of_eq_directory hname hnode] at h
        exact ih h

/-- A path that reads no file fails with one of these errors. -/
theorem read_error_mem {path : String} {e : SystemError} (h : t.read path = .error e) :
    e ∈ pathErrors := by
  rw [read] at h
  split at h
  · obtain rfl := Except.error.inj h
    simp [pathErrors]
  · exact walk_error_mem h

/-! ## Listed files -/

/-- What stands above a listed file is a directory, unless it is a file as well. -/
theorem node?_of_above {above : List String} (hlisted : t.files.lookup names = some contents)
    (habove : above <+: names.dropLast) (hfree : t.files.lookup above = none) :
    t.node? above = some .directory := by
  obtain ⟨earlier, later, hfiles, -⟩ := List.lookup_eq_some_iff.mp hlisted
  have hmem : names.dropLast ∈
      t.working :: t.directories ++ t.files.map fun f => f.1.dropLast := by
    simp [hfiles]
  rw [node?, hfree]
  exact if_pos (List.any_eq_true.mpr ⟨_, hmem, List.isPrefixOf_iff_prefix.mpr habove⟩)

/-- The names before the last of a listed file lead to its directory. -/
theorem leads_of_listed {before : List String} {last : String}
    (hlisted : t.files.lookup (here ++ before ++ [last]) = some contents)
    (hentries : ∀ name ∈ before, IsEntry name)
    (hfree : ∀ above, above <+: before → t.files.lookup (here ++ above) = none) :
    t.Leads here before (here ++ before) := by
  induction before generalizing here with
  | nil =>
    rw [List.append_nil]
    exact .done here
  | cons name rest ih =>
    obtain ⟨hname, hrest⟩ := List.forall_mem_cons.mp hentries
    have hsplit : here ++ name :: rest = here ++ [name] ++ rest := List.append_cons ..
    rw [hsplit] at hlisted ⊢
    have hnode : t.node? (here ++ [name]) = some .directory := by
      refine node?_of_above hlisted ?_ (hfree [name] (List.prefix_append [name] rest))
      rw [List.dropLast_concat]
      exact List.prefix_append ..
    refine .down hname hnode (ih hlisted hrest fun above habove => ?_)
    rw [List.append_assoc]
    exact hfree (name :: above) (List.cons_prefix_cons.mpr ⟨rfl, habove⟩)

/-- A listed file is reached by its own names. -/
theorem walk_listed {before : List String} {last : String}
    (hlisted : t.files.lookup (here ++ before ++ [last]) = some contents)
    (hentries : ∀ name ∈ before ++ [last], IsEntry name)
    (hfree : ∀ above, above <+: before → t.files.lookup (here ++ above) = none) :
    t.walk here (before ++ [last]) = .ok contents := by
  obtain ⟨hbefore, hlast⟩ := List.forall_mem_append.mp hentries
  rw [walk_eq_ok_iff]
  exact ⟨before, last, here ++ before, rfl, leads_of_listed hlisted hbefore hfree,
    hlast last (List.mem_singleton_self last), hlisted⟩

/-- The path that some names make. -/
def pathOf (names : List String) : String :=
  "/".intercalate names

/-- Names without slashes are found again in the path that they make. -/
theorem namesOf_pathOf (hne : names ≠ []) (hslash : ∀ name ∈ names, '/' ∉ name.toList) :
    namesOf (pathOf names) = names := by
  have hsplit : (['/'].intercalate (names.map String.toList)).splitOn '/' =
      names.map String.toList := by
    refine List.splitOn_intercalate '/' ?_ (by simpa using hne)
    simpa using hslash
  rw [namesOf, pathOf, String.toList_intercalate]
  change List.map String.ofList ((['/'].intercalate (names.map String.toList)).splitOn '/') = names
  rw [hsplit, List.map_map]
  simp [Function.comp_def]

theorem read_pathOf (hne : names ≠ []) (hslash : ∀ name ∈ names, '/' ∉ name.toList)
    (hshort : (pathOf names).utf8ByteSize ≤ longestPath) :
    t.read (pathOf names) = t.walk (t.startOf (pathOf names)) names := by
  rw [read, if_neg (Nat.not_lt.mpr hshort), namesOf_pathOf hne hslash]

theorem toList_pathOf_cons (name : String) (hne : names ≠ []) :
    (pathOf (name :: names)).toList = name.toList ++ '/' :: (pathOf names).toList := by
  obtain ⟨second, rest, rfl⟩ := List.exists_cons_of_ne_nil hne
  simp [pathOf, String.toList_intercalate]

/-- A path of which the first name is not empty starts with that name. -/
theorem startOf_pathOf {rest : List String} (hname : name ≠ "") (hslash : '/' ∉ name.toList) :
    t.startOf (pathOf (name :: rest)) = t.working := by
  have hne : name.toList ≠ [] := by simpa using hname
  have hhead : (pathOf (name :: rest)).toList.head? = name.toList.head? := by
    cases rest with
    | nil => simp [pathOf]
    | cons second rest =>
      rw [toList_pathOf_cons name (List.cons_ne_nil second rest), List.head?_append_of_ne_nil _ hne]
  rw [startOf, if_neg]
  intro hroot
  rw [hhead] at hroot
  exact hslash (List.mem_of_mem_head? hroot)

/-- **A listed file is read by its own names from the root.** -/
theorem read_listed {before : List String} {last : String}
    (hlisted : t.files.lookup (before ++ [last]) = some contents)
    (hentries : ∀ name ∈ before ++ [last], IsEntry name ∧ '/' ∉ name.toList)
    (hfree : ∀ above, above <+: before → t.files.lookup above = none)
    (hshort : (pathOf ("" :: (before ++ [last]))).utf8ByteSize ≤ longestPath) :
    t.read (pathOf ("" :: (before ++ [last]))) = .ok contents := by
  have hslash : ∀ name ∈ "" :: (before ++ [last]), '/' ∉ name.toList :=
    List.forall_mem_cons.mpr ⟨by simp, fun name hname => (hentries name hname).2⟩
  have hstart : t.startOf (pathOf ("" :: (before ++ [last]))) = [] := by
    rw [startOf, toList_pathOf_cons "" (List.concat_ne_nil _ _)]
    rfl
  rw [read_pathOf (List.cons_ne_nil _ _) hslash hshort, hstart, walk_stay (.inl rfl)]
  exact walk_listed hlisted (fun name hname => (hentries name hname).1) hfree

/-- **Below the working directory it is read by the rest of its names.** -/
theorem read_listed_of_working {before : List String} {last : String}
    (hlisted : t.files.lookup (t.working ++ before ++ [last]) = some contents)
    (hentries : ∀ name ∈ before ++ [last], IsEntry name ∧ '/' ∉ name.toList)
    (hfree : ∀ above, above <+: before → t.files.lookup (t.working ++ above) = none)
    (hshort : (pathOf (before ++ [last])).utf8ByteSize ≤ longestPath) :
    t.read (pathOf (before ++ [last])) = .ok contents := by
  have hstart : t.startOf (pathOf (before ++ [last])) = t.working := by
    obtain ⟨name, rest, hnames⟩ := List.exists_cons_of_ne_nil (List.concat_ne_nil last before)
    obtain ⟨hname, hslash⟩ := hentries name (hnames ▸ List.mem_cons_self)
    rw [hnames]
    exact startOf_pathOf hname.ne_empty hslash
  rw [read_pathOf (List.concat_ne_nil _ _) (fun name hname => (hentries name hname).2) hshort,
    hstart]
  exact walk_listed hlisted (fun name hname => (hentries name hname).1) hfree

/-- Slashes may be repeated, and dots lead back to the file; a slash behind it does not. -/
example :
    let t : FileTree := { files := [(["tmp", "session", "a.bf"], [43])], working := ["tmp"] }
    t.read "session//.././session/a.bf" = .ok [43] ∧ t.read "/tmp/session/a.bf" = .ok [43] ∧
      t.read "session/a.bf/" = .error .notDirectory ∧ t.read "session" = .error .isDirectory :=
  ⟨rfl, rfl, rfl, rfl⟩

end FileTree

/-! ## Sessions -/

namespace Session

/-- **A session on a path** goes on with the contents of the file that the path reads. If it reads
none, the session reports one of four errors and exits with code 2. -/
theorem start_read (o : Options) (t : FileTree) (styled : Bool) :
    (∃ contents, t.read o.file = .ok contents ∧
        start o (t.read o.file) styled = plan o contents styled) ∨
      ∃ e ∈ FileTree.pathErrors, t.read o.file = .error e ∧
        start o (t.read o.file) styled = .reply (unreadable o.file e styled) ∧
        (unreadable o.file e styled).exitCode = 2 := by
  rcases h : t.read o.file with e | contents
  · exact .inr ⟨e, FileTree.read_error_mem h, rfl, rfl, rfl⟩
  · exact .inl ⟨contents, rfl, rfl⟩

end Session

end Tapecode
