import Mathlib.Data.List.Nodup
import Mathlib.Data.List.Count
import BinaryMachine.Loading
import BinaryMachine.Proofs.Loading.Paths

/-!
# Directories of programs

A directory is loaded entry by entry.  Each entry that is listed gives one
result, which is what loading its path as a single file gives, with the failure
wrapped; no other entry has a part in it.  A directory among the entries is
passed over only as long as its path can be followed, so behind a path that is
almost too long it is listed and fails.
-/

namespace BinaryMachine.Node

def IsDirectory : Node → Prop
  | directory _ => True
  | file _ => False

instance : DecidablePred IsDirectory
  | directory _ => isTrue trivial
  | file _ => isFalse id

variable {root node : Node} {path name : String} {entries : List (String × Node)}

theorem isProgramName_iff :
    isProgramName name = true ↔ ∃ stem, stem ≠ "" ∧ name = stem ++ ".json" := by
  have hjson : ".json".toList = ['.', 'j', 's', 'o', 'n'] := rfl
  simp only [isProgramName, beq_iff_eq]
  constructor
  · intro h
    have hcut : name.toList.reverse.takeWhile (· != '.') ++
        name.toList.reverse.dropWhile (· != '.') = name.toList.reverse :=
      List.takeWhile_append_dropWhile
    unfold extension? at h
    split at h
    · next c rest hdrop =>
        have hext : name.toList.reverse.takeWhile (· != '.') = ['n', 'o', 's', 'j'] := by
          simpa using congrArg List.reverse (Option.some.inj h)
        rw [hext, hdrop] at hcut
        refine ⟨String.ofList (c :: rest).reverse, ?_, ?_⟩
        · rw [← String.toList_inj.ne]
          simp
        · rw [← String.toList_inj, String.toList_append, String.toList_ofList, hjson]
          simpa using (congrArg List.reverse hcut).symm
    · contradiction
  · rintro ⟨stem, hne, rfl⟩
    have hstem : stem.toList.reverse ≠ [] := by
      simpa using hne
    obtain ⟨c, rest, hrest⟩ := List.exists_cons_of_ne_nil hstem
    rw [extension?, String.toList_append, hjson, List.reverse_append, hrest]
    simp

theorem isDirectoryAt_childPath (hroot : root.WellFormed)
    (hpath : root.resolve path = .ok (directory entries)) (hentry : (name, node) ∈ entries) :
    root.isDirectoryAt (childPath path name) = true ↔
      (childPath path name).utf8ByteSize < pathLimit ∧ node.IsDirectory := by
  rcases Nat.lt_or_ge (childPath path name).utf8ByteSize pathLimit with hshort | hlong
  · rw [isDirectoryAt, resolve_childPath hroot hpath hentry hshort]
    cases node <;> simp [IsDirectory, hshort]
  · have hname : IsName name := hroot.isName_of_resolve hpath hentry
    rw [isDirectoryAt, resolve_childPath_of_long hpath hname hlong]
    simp [Nat.not_lt.2 hlong]

end BinaryMachine.Node

namespace BinaryMachine.Program

open Node (IsDirectory childPath pathLimit)

variable {root : Node} {path child : String} {entries : List (String × Node)}
  {entry : String × Node}

/-! ## What is listed -/

/-- The entries that loading a directory has results for.  Behind a path that is
too long nothing can be told to be a directory. -/
structure Listed (path : String) (entry : String × Node) : Prop where
  name : ∃ stem, stem ≠ "" ∧ entry.1 = stem ++ ".json"
  node : ¬ entry.2.IsDirectory ∨ pathLimit ≤ (childPath path entry.1).utf8ByteSize

theorem listed_iff : Listed path entry ↔
    Node.isProgramName entry.1 = true ∧
      (¬ entry.2.IsDirectory ∨ pathLimit ≤ (childPath path entry.1).utf8ByteSize) := by
  rw [Node.isProgramName_iff]
  exact ⟨fun h => ⟨h.name, h.node⟩, fun h => ⟨h.1, h.2⟩⟩

instance : DecidablePred (Listed path) := fun _ =>
  decidable_of_iff _ listed_iff.symm

/-- As long as the path of the directory leaves room for every name, exactly the
programs that are no directories are listed. -/
theorem listed_iff_of_short (hname : Node.IsName entry.1)
    (hshort : path.utf8ByteSize + 1 + Node.nameLimit < pathLimit) :
    Listed path entry ↔
      (∃ stem, stem ≠ "" ∧ entry.1 = stem ++ ".json") ∧ ¬ entry.2.IsDirectory := by
  have hchild := Node.utf8ByteSize_childPath_le path entry.1
  have hroom := hname.short
  have hnever : ¬ pathLimit ≤ (childPath path entry.1).utf8ByteSize := by omega
  rw [listed_iff, Node.isProgramName_iff, or_iff_left hnever]

theorem programPaths_perm (hroot : root.WellFormed)
    (hpath : root.resolve path = .ok (.directory entries)) :
    (programPaths root path entries).Perm
      ((entries.filter (Listed path ·)).map fun entry => childPath path entry.1) := by
  have hsorted := ((List.mergeSort_perm ((entries.map Prod.fst).filter Node.isProgramName)
    (fun a b => decide (a ≤ b))).map (childPath path)).filter fun child => !root.isDirectoryAt child
  refine hsorted.trans (List.Perm.of_eq ?_)
  simp only [List.filter_map, List.map_map, List.filter_filter]
  change List.map (fun entry : String × Node => childPath path entry.1) _ = _
  congr 1
  apply List.filter_congr
  rintro ⟨name, node⟩ hentry
  have hdirectory := Node.isDirectoryAt_childPath hroot hpath hentry
  rw [Bool.eq_iff_iff, decide_eq_true_iff, listed_iff]
  simp only [Function.comp_apply, Bool.and_eq_true, Bool.not_eq_true', ← Bool.not_eq_true,
    hdirectory, not_and_or, Nat.not_lt, and_comm]

theorem nodup_programPaths (hroot : root.WellFormed)
    (hpath : root.resolve path = .ok (.directory entries)) :
    (programPaths root path entries).Nodup := by
  have hmap : ((entries.filter (Listed path ·)).map fun entry => childPath path entry.1) =
      ((entries.filter (Listed path ·)).map Prod.fst).map (childPath path) := by
    rw [List.map_map]
    rfl
  have hnames : ((entries.filter (Listed path ·)).map Prod.fst).Nodup :=
    (List.filter_sublist.map Prod.fst).nodup (hroot.nodup_of_resolve hpath)
  rw [(programPaths_perm hroot hpath).nodup_iff, hmap]
  exact hnames.map fun _ _ => Node.childPath_inj.1

theorem childPath_mem_programPaths (hroot : root.WellFormed)
    (hpath : root.resolve path = .ok (.directory entries)) (hentry : entry ∈ entries) :
    childPath path entry.1 ∈ programPaths root path entries ↔ Listed path entry := by
  rw [(programPaths_perm hroot hpath).mem_iff, List.mem_map]
  constructor
  · rintro ⟨other, hother, hsame⟩
    obtain ⟨hmem, hlisted⟩ := List.mem_filter.1 hother
    have heq : other = entry := List.inj_on_of_nodup_map (hroot.nodup_of_resolve hpath) hmem
      hentry (Node.childPath_inj.1 hsame)
    rw [← heq]
    exact of_decide_eq_true hlisted
  · intro h
    exact ⟨entry, List.mem_filter.2 ⟨hentry, decide_eq_true h⟩, rfl⟩

/-! ## Single results -/

/-- A result for a path that says what loading the path as a file says. -/
structure AgreesWithFile (root : Node) (path : String)
    (result : Except Failure (String × Program)) : Prop where
  ok_iff : ∀ found program, result = .ok (found, program) ↔
    found = path ∧ loadFile root path = .ok program
  error_iff : ∀ failure, result = .error failure ↔
    ∃ cause, loadFile root path = .error cause ∧ failure = .failedEntry path cause
  message : ∀ failure cause, result = .error failure → loadFile root path = .error cause →
    failure.message = "File error: Failed to load program from " ++ path ++ ": " ++ cause.message

theorem agreesWithFile_loadEntry (root : Node) (path : String) :
    AgreesWithFile root path (loadEntry root path) := by
  unfold loadEntry
  cases hload : loadFile root path with
  | error cause =>
      refine ⟨by simp [hload], by simp [hload, eq_comm], ?_⟩
      intro failure cause' hfailure hcause
      rw [hload] at hcause
      cases hfailure
      cases hcause
      rfl
  | ok program => exact ⟨by simp [hload, eq_comm], by simp [hload], by simp⟩

def resultPath : Except Failure (String × Program) → Option String
  | .ok (path, _) => some path
  | .error (.failedEntry path _) => some path
  | .error _ => none

/-- The results for a path. -/
def resultsAt (path : String) (results : List (Except Failure (String × Program))) :
    List (Except Failure (String × Program)) :=
  results.filter (resultPath · == some path)

theorem resultPath_loadEntry (root : Node) (path : String) :
    resultPath (loadEntry root path) = some path := by
  unfold loadEntry
  cases loadFile root path <;> rfl

/-- Of a tree only what the path leads to counts. -/
theorem loadEntry_congr {other : Node} (h : root.resolve path = other.resolve path) :
    loadEntry root path = loadEntry other path := by
  rw [loadEntry, loadEntry, loadFile, loadFile, Node.readText, Node.readText, h]

theorem loadEntry_of_shared_entry {other : Node} {others : List (String × Node)}
    (hroot : root.WellFormed) (hpath : root.resolve path = .ok (.directory entries))
    (hother : other.WellFormed) (hotherPath : other.resolve path = .ok (.directory others))
    (hentry : entry ∈ entries) (hentryOther : entry ∈ others) :
    loadEntry root (childPath path entry.1) = loadEntry other (childPath path entry.1) := by
  apply loadEntry_congr
  rcases Nat.lt_or_ge (childPath path entry.1).utf8ByteSize pathLimit with hshort | hlong
  · rw [Node.resolve_childPath hroot hpath hentry hshort,
      Node.resolve_childPath hother hotherPath hentryOther hshort]
  · have hname := hroot.isName_of_resolve hpath hentry
    rw [Node.resolve_childPath_of_long hpath hname hlong,
      Node.resolve_childPath_of_long hotherPath hname hlong]

/-! ## Whole directories -/

theorem loadDirectory_eq (hpath : root.resolve path = .ok (.directory entries)) :
    loadDirectory root path = (programPaths root path entries).map (loadEntry root) := by
  rw [loadDirectory, hpath]

theorem resultsAt_loadDirectory (hroot : root.WellFormed)
    (hpath : root.resolve path = .ok (.directory entries)) (hentry : entry ∈ entries) :
    resultsAt (childPath path entry.1) (loadDirectory root path) =
      if Listed path entry then [loadEntry root (childPath path entry.1)] else [] := by
  have hsame : ((resultPath · == some (childPath path entry.1)) ∘ loadEntry root) =
      (· == childPath path entry.1) := by
    funext child
    simp [resultPath_loadEntry]
  rw [resultsAt, loadDirectory_eq hpath, List.filter_map, hsame, List.filter_beq,
    (nodup_programPaths hroot hpath).count]
  simp only [childPath_mem_programPaths hroot hpath hentry]
  split <;> rfl

/-- The results are those of the listed entries, one for each, and the result
for an entry is the same in every tree that has this entry in its place.  A
directory is never listed where all paths stay short. -/
theorem directory_results_are_those_of_listed_entries (hroot : root.WellFormed)
    (hpath : root.resolve path = .ok (.directory entries)) :
    (∃ results, results.Perm (loadDirectory root path) ∧
      List.Forall₂ (fun entry => AgreesWithFile root (childPath path entry.1))
        (entries.filter (Listed path ·)) results) ∧
    ∀ entry ∈ entries,
      (¬ Listed path entry → resultsAt (childPath path entry.1) (loadDirectory root path) = []) ∧
      (Listed path entry → ∃ result, AgreesWithFile root (childPath path entry.1) result ∧
        ∀ other others, other.WellFormed → other.resolve path = .ok (.directory others) →
          entry ∈ others →
            resultsAt (childPath path entry.1) (loadDirectory other path) = [result]) ∧
      (path.utf8ByteSize + 1 + Node.nameLimit < pathLimit →
        (Listed path entry ↔
          (∃ stem, stem ≠ "" ∧ entry.1 = stem ++ ".json") ∧ ¬ entry.2.IsDirectory)) := by
  refine ⟨⟨_, ((programPaths_perm hroot hpath).map (loadEntry root)).symm.trans
    (List.Perm.of_eq (loadDirectory_eq hpath).symm), ?_⟩, ?_⟩
  · rw [List.map_map, List.forall₂_map_right_iff]
    exact List.forall₂_same.2 fun entry _ =>
      agreesWithFile_loadEntry root (childPath path entry.1)
  · intro entry hentry
    refine ⟨?_, ?_, ?_⟩
    · intro hlisted
      rw [resultsAt_loadDirectory hroot hpath hentry, if_neg hlisted]
    · intro hlisted
      refine ⟨_, agreesWithFile_loadEntry root (childPath path entry.1), ?_⟩
      intro other others hother hotherPath hentryOther
      rw [resultsAt_loadDirectory hother hotherPath hentryOther, if_pos hlisted,
        loadEntry_of_shared_entry hroot hpath hother hotherPath hentry hentryOther]
    · exact listed_iff_of_short (hroot.isName_of_resolve hpath hentry)

theorem directory_results_of_a_program_and_a_subdirectory :
    let text := "\x7b\"name\":\"\",\"instructions\":\"0,0,0,0\",\"initial_id\":0\x7d"
    let root := Node.putFile (some text) ["d", "a.json"]
      (Node.putDirectory ["d", "b.json"] (Node.putFile none ["d", "c.txt"] .empty))
    let less := Node.putFile (some text) ["d", "a.json"] .empty
    root.WellFormed ∧ less.WellFormed ∧
      root.resolve "d" = .ok (.directory
        [("c.txt", .file none), ("b.json", .empty), ("a.json", .file (some text))]) ∧
      less.resolve "d" = .ok (.directory [("a.json", .file (some text))]) ∧
      resultsAt "d/b.json" (loadDirectory root "d") = [] ∧
      ∃ result, AgreesWithFile root "d/a.json" result ∧
        resultsAt "d/a.json" (loadDirectory root "d") = [result] ∧
        resultsAt "d/a.json" (loadDirectory less "d") = [result] := by
  intro text root less
  have hd : Node.IsName "d" := ⟨by simp, by simp, by simp, by simp, by simp, by decide⟩
  have ha : Node.IsName "a.json" := ⟨by simp, by simp, by simp, by simp, by simp, by decide⟩
  have hb : Node.IsName "b.json" := ⟨by simp, by simp, by simp, by simp, by simp, by decide⟩
  have hc : Node.IsName "c.txt" := ⟨by simp, by simp, by simp, by simp, by simp, by decide⟩
  have hroot : root.WellFormed :=
    .putFile _ (.putDirectory (.putFile _ .empty (by simp [hd, hc])) (by simp [hd, hb]))
      (by simp [hd, ha])
  have hless : less.WellFormed := .putFile _ .empty (by simp [hd, ha])
  have hpath : root.resolve "d" = .ok (.directory
      [("c.txt", .file none), ("b.json", .empty), ("a.json", .file (some text))]) := rfl
  have hlessPath : less.resolve "d" = .ok (.directory [("a.json", .file (some text))]) := rfl
  have hbelow : ¬ Listed "d" ("b.json", .empty) := by decide
  have hlisted : Listed "d" ("a.json", .file (some text)) := ⟨⟨"a", by decide, rfl⟩, .inl id⟩
  have hall := (directory_results_are_those_of_listed_entries hroot hpath).2
  obtain ⟨result, hresult, hsame⟩ := (hall _ (by simp)).2.1 hlisted
  exact ⟨hroot, hless, hpath, hlessPath, (hall _ (by simp)).1 hbelow, result, hresult,
    hsame root _ hroot hpath (by simp), hsame less _ hless hlessPath (by simp)⟩

/-! ## A directory behind a long path -/

/-- A path that stays where it begins. -/
def dots : Nat → String
  | 0 => "."
  | n + 1 => dots n ++ "/" ++ "."

theorem utf8ByteSize_dots (n : Nat) : (dots n).utf8ByteSize = 2 * n + 1 := by
  induction n with
  | zero => rfl
  | succ n ih =>
      rw [dots, String.utf8ByteSize_append, String.utf8ByteSize_append, ih]
      change 2 * n + 1 + 1 + 1 = 2 * (n + 1) + 1
      omega

theorem pathParts_dots (n : Nat) : Node.pathParts (dots n) = List.replicate (n + 1) "." := by
  induction n with
  | zero => rfl
  | succ n ih =>
      rw [dots, Node.pathParts_append (dots n) (by simp), ih]
      exact List.replicate_succ'.symm

theorem mem_dots {n : Nat} {c : Char} (h : c ∈ (dots n).toList) : c = '.' ∨ c = '/' := by
  induction n with
  | zero => exact .inl (by simpa [dots] using h)
  | succ n ih =>
      simp only [dots, String.toList_append, List.mem_append] at h
      rcases h with (h | h) | h
      · exact ih h
      · exact .inr (by simpa using h)
      · exact .inl (by simpa using h)

theorem head_dots (n : Nat) : (dots n).toList.head? = some '.' := by
  induction n with
  | zero => rfl
  | succ n ih => simp [dots, List.head?_append, ih]

theorem followAll_dots (entries : List (String × Node)) (n : Nat) :
    Node.followAll [.directory entries] (List.replicate n ".") = .ok [.directory entries] := by
  induction n with
  | zero => rfl
  | succ n ih => exact ih

theorem resolve_dots {n : Nat} (h : 2 * n + 1 < pathLimit) :
    (Node.directory entries).resolve (dots n) = .ok (.directory entries) := by
  have hnul : '\x00' ∉ (dots n).toList := by
    intro hmem
    rcases mem_dots hmem with h | h <;> contradiction
  have hne : dots n ≠ "" := by
    intro hempty
    have := head_dots n
    rw [hempty] at this
    contradiction
  have horigin : (Node.directory entries).origin (dots n) = [.directory entries] := by
    rw [Node.origin, head_dots]
    rfl
  rw [Node.resolve_eq hnul hne (by rwa [utf8ByteSize_dots]), horigin, pathParts_dots,
    followAll_dots]
  rfl

theorem childPath_dots (n : Nat) (name : String) :
    childPath (dots n) name = dots n ++ "/" ++ name := by
  rw [childPath, if_neg]
  cases n <;> simp [dots]

theorem directory_behind_long_path_is_listed :
    (Node.directory [("e.json", .empty)]).resolve (dots 2044) =
        .ok (.directory [("e.json", .empty)]) ∧
      loadDirectory (.directory [("e.json", .empty)]) (dots 2044) =
        [.error (.failedEntry (dots 2044 ++ "/" ++ "e.json")
          (.unreadableFile (dots 2044 ++ "/" ++ "e.json") .nameTooLong))] := by
  have hpath : (Node.directory [("e.json", .empty)]).resolve (dots 2044) =
      .ok (.directory [("e.json", .empty)]) := resolve_dots (by decide)
  have hname : Node.IsName "e.json" := ⟨by simp, by simp, by simp, by simp, by simp, by decide⟩
  have hlong : pathLimit ≤ (childPath (dots 2044) "e.json").utf8ByteSize := by
    rw [childPath_dots, String.utf8ByteSize_append, String.utf8ByteSize_append, utf8ByteSize_dots]
    decide
  have hchild := Node.resolve_childPath_of_long hpath hname hlong
  have hpaths : programPaths (.directory [("e.json", .empty)]) (dots 2044) [("e.json", .empty)] =
      [childPath (dots 2044) "e.json"] := by
    have hprogram : Node.isProgramName "e.json" = true := rfl
    have hnames : Node.programNames [("e.json", Node.empty)] = ["e.json"] := by
      simp [Node.programNames, hprogram]
    rw [programPaths, hnames]
    simp [Node.isDirectoryAt, hchild]
  refine ⟨hpath, ?_⟩
  rw [loadDirectory_eq hpath, hpaths, List.map_singleton, loadEntry, loadFile, Node.readText,
    hchild, childPath_dots]
  rfl

end BinaryMachine.Program
