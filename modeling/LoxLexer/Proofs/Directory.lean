import LoxLexer.Directory

/-!
# Which file a path names

Where a path leads is decided by the folders that it goes through alone, and what is read by the file
to which it leads (`SameFor.read?_eq`). So a file in another place is not seen, and neither is a
folder that the path does not go through (`sameFor_put`).
-/

namespace LoxLexer.Directory

variable {dir dir' : Directory} {node : Node} {here place other : Place} {path : String}

/-! ## 1. Following names -/

/-- The places that names go through, as far as they lead. -/
def through (dir : Directory) (here : Place) : List String → List Place
  | [] => []
  | name :: rest =>
    here ::
      match dir.enter? here name with
      | some there => dir.through there rest
      | none => []

theorem enter?_congr (h : dir'.isFolder here = dir.isFolder here) (name : String) :
    dir'.enter? here name = dir.enter? here name := by
  rw [enter?, enter?, h]

/-- **Following names.** What stands in a place that the names do not go through has no effect, and
neither has what is in a file. -/
theorem follow?_congr (names : List String)
    (h : ∀ place ∈ dir.through here names, dir'.isFolder place = dir.isFolder place) :
    dir'.follow? here names = dir.follow? here names := by
  induction names generalizing here with
  | nil => rfl
  | cons name rest ih =>
    rw [through, List.forall_mem_cons] at h
    rw [follow?, follow?, enter?_congr h.1]
    cases henter : dir.enter? here name with
    | none => rfl
    | some there =>
      rw [henter] at h
      exact ih h.2

/-! ## 2. Reading -/

/-- A path begins in the same place of two directories, goes through the same folders, and leads to
the same file or to none. All other files and folders can differ, be missing or be there in
addition. -/
structure SameFor (path : String) (dir dir' : Directory) : Prop where
  start : dir'.start path = dir.start path
  folders : ∀ place ∈ dir.through (dir.start path) (names path),
    dir'.isFolder place = dir.isFolder place
  named : ∀ place, dir.place? path = some place → dir'.file? place = dir.file? place

/-- **Reading.** The same is read in both. -/
theorem SameFor.read?_eq (h : SameFor path dir dir') : dir'.read? path = dir.read? path := by
  have hplace : dir'.place? path = dir.place? path := by
    rw [place?, place?, h.start, follow?_congr _ h.folders]
  rw [read?, read?, hplace]
  cases hnamed : dir.place? path with
  | none => rfl
  | some place => exact h.named place hnamed

/-! ## 3. Files and folders in other places -/

theorem working_put (dir : Directory) (node : Node) (other : Place) :
    (dir.put node other).working = dir.working := by
  cases other with
  | nil => rfl
  | cons name above =>
    rw [put]
    split <;> rfl

theorem node?_put_of_ne (node : Node) (h : place ≠ other) :
    (dir.put node other).node? place = dir.node? place := by
  cases other with
  | nil => rfl
  | cons name above =>
    rw [put]
    split
    · exact if_neg h
    · rfl

-- Nothing is put in the place of a folder, so that a file leaves all folders as they are.
theorem isFolder_put_file (contents : ByteArray) (place other : Place) :
    (dir.put (.file contents) other).isFolder place = dir.isFolder place := by
  by_cases hplace : place = other
  · subst hplace
    cases place with
    | nil => rfl
    | cons name above =>
      rw [put]
      split
      · rename_i h
        rw [h.2, isFolder]
        dsimp only [nodeWith?]
        rw [if_pos rfl]
      · rfl
  · rw [isFolder, isFolder, node?_put_of_ne _ hplace]

/-- **Other places.** What is put in a place is not seen under a path that does not lead there, unless
it is a folder that the path goes through. -/
theorem sameFor_put (hnamed : dir.place? path ≠ some other)
    (hfolder : node = .folder → other ∉ dir.through (dir.start path) (names path)) :
    SameFor path dir (dir.put node other) where
  start := by rw [start, start, working_put]
  folders place hplace := by
    cases node with
    | file contents => exact isFolder_put_file contents place other
    | folder =>
      have hne : place ≠ other := by
        rintro rfl
        exact hfolder rfl hplace
      rw [isFolder, isFolder, node?_put_of_ne _ hne]
  named place hplace := by
    have hne : place ≠ other := by
      rintro rfl
      exact hnamed hplace
    rw [file?, file?, node?_put_of_ne _ hne]

end LoxLexer.Directory
