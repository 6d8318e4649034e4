import TokenCorpus.Proofs.FileSystem.Following

/-!
What requests answer, told from where their path leads.
-/

namespace TokenCorpus.FileSystem

variable {fs : FileSystem} {path : Text}

theorem find_eq (fs : FileSystem) (path : Text) :
    fs.find path =
      match fs.land .target path with
      | .ok (.node _ node) => .ok node
      | .ok (.free ..) => .error .notFound
      | .error e => .error e := by
  simp only [find, land]
  cases fs.place .target path with
  | error e => rfl
  | ok place => cases place <;> rfl

theorem leadsSomewhere_iff :
    fs.leadsSomewhere path ↔ ∃ location node, fs.land .target path = .ok (.node location node) := by
  rw [leadsSomewhere, find_eq]
  cases fs.land .target path with
  | error e => simp
  | ok landing => cases landing <;> simp

theorem findDirectory_eq_ok_iff {dir : Location} :
    fs.findDirectory path = .ok dir ↔ fs.land .target path = .ok (.node dir .directory) := by
  simp only [findDirectory, land]
  cases fs.place .target path with
  | error e => simp [bind, Except.bind, Except.map]
  | ok place =>
    cases place with
    | free => simp [bind, Except.bind, Except.map, Place.landing, throw, throwThe,
        MonadExceptOf.throw]
    | node location node =>
      cases node <;>
        simp [bind, Except.bind, Except.map, Place.landing, throw, throwThe,
          MonadExceptOf.throw, pure, Except.pure]

/-- The answer to a request for a directory. -/
def directoryAt : Except FileError Landing → Except FileError Location
  | .ok (.node location .directory) => .ok location
  | .ok (.node _ (.file _)) | .ok (.node _ (.link _)) => .error .notADirectory
  | .ok (.free ..) => .error .notFound
  | .error e => .error e

theorem findDirectory_eq (fs : FileSystem) (path : Text) :
    fs.findDirectory path = directoryAt (fs.land .target path) := by
  simp only [findDirectory, land]
  cases fs.place .target path with
  | error e => rfl
  | ok place =>
    cases place with
    | free => rfl
    | node location node => cases node <;> rfl

theorem isDirectory_iff :
    fs.isDirectory path ↔ ∃ dir, fs.land .target path = .ok (.node dir .directory) := by
  rw [isDirectory, find_eq]
  cases fs.land .target path with
  | error e => simp
  | ok landing =>
    cases landing with
    | free => simp
    | node location node => cases node <;> simp

theorem isDirectory_iff_findDirectory :
    fs.isDirectory path ↔ ∃ dir, fs.findDirectory path = .ok dir := by
  simp only [isDirectory_iff, findDirectory_eq_ok_iff]

/-- The answer to a request for the contents of a file. -/
def contentAt : Except FileError Landing → Except FileError Bytes
  | .ok (.node _ (.file content)) => .ok content
  | .ok (.node _ (.link _)) => .error .linkLoop
  | .ok (.node _ .directory) => .error .isADirectory
  | .ok (.free ..) => .error .notFound
  | .error e => .error e

theorem read_eq (fs : FileSystem) (path : Text) :
    fs.read path = contentAt (fs.land .target path) := by
  rw [read, find_eq]
  cases fs.land .target path with
  | error e => rfl
  | ok landing =>
    cases landing with
    | free => rfl
    | node location node => cases node <;> rfl

theorem read_eq_ok_iff {content : Bytes} :
    fs.read path = .ok content ↔
      ∃ location, fs.land .target path = .ok (.node location (.file content)) := by
  rw [read_eq]
  constructor
  · intro h
    cases hland : fs.land .target path with
    | error e =>
      rw [hland] at h
      simp [contentAt] at h
    | ok landing =>
      rw [hland] at h
      cases landing with
      | free => simp [contentAt] at h
      | node location node =>
        cases node with
        | file found =>
          simp only [contentAt, Except.ok.injEq] at h
          exact ⟨location, by rw [h]⟩
        | link => simp [contentAt] at h
        | directory => simp [contentAt] at h
  · rintro ⟨location, h⟩
    rw [h]
    rfl

/-- A file is made where its path leads to a free name. -/
theorem createFile_of_free {dir : Location} {name : Name} (content : Bytes)
    (h : fs.land .entry path = .ok (.free dir name)) :
    ∃ isDirectory isFree,
      fs.createFile path content = .ok (fs.insert dir name isDirectory isFree (.file content)) := by
  simp only [land] at h
  rw [createFile, occupy]
  generalize fs.place .entry path = found at h
  cases found with
  | error e => simp [Except.map] at h
  | ok place =>
    cases place with
    | node => simp [Except.map, Place.landing] at h
    | free d n isDirectory isFree =>
      simp only [Except.map, Place.landing, Except.ok.injEq, Landing.free.injEq] at h
      obtain ⟨rfl, rfl⟩ := h
      exact ⟨isDirectory, isFree, rfl⟩

/-- Where something is, nothing else is made. -/
theorem createFile_of_node {location : Location} {node : FileNode} (content : Bytes)
    (h : fs.land .entry path = .ok (.node location node)) :
    fs.createFile path content = .error .alreadyExists := by
  simp only [land] at h
  rw [createFile, occupy]
  generalize fs.place .entry path = found at h
  cases found with
  | error e => simp [Except.map] at h
  | ok place =>
    cases place with
    | node => rfl
    | free => simp [Except.map, Place.landing] at h

theorem createFile_of_error {e : FileError} (content : Bytes)
    (h : fs.land .entry path = .error e) : fs.createFile path content = .error e := by
  simp only [land] at h
  rw [createFile, occupy]
  generalize fs.place .entry path = found at h
  cases found with
  | error e' =>
    simp only [Except.map, Except.error.injEq] at h
    rw [h]
    rfl
  | ok => simp [Except.map] at h

theorem createFile_eq_ok {content : Bytes} {made : FileSystem}
    (h : fs.createFile path content = .ok made) :
    ∃ dir name isDirectory isFree, fs.land .entry path = .ok (.free dir name) ∧
      made = fs.insert dir name isDirectory isFree (.file content) := by
  cases hland : fs.land .entry path with
  | error e => simp [createFile_of_error content hland] at h
  | ok landing =>
    cases landing with
    | node => simp [createFile_of_node content hland] at h
    | free dir name =>
      obtain ⟨isDirectory, isFree, hmade⟩ := createFile_of_free content hland
      rw [hmade, Except.ok.injEq] at h
      exact ⟨dir, name, isDirectory, isFree, rfl, h.symm⟩

section Growth

variable {Dir : Location → Prop} {before after : FileSystem}

theorem findDirectory_grows (hgrow : GrowsBy (FileIn Dir) before after) {dir : Location} :
    after.findDirectory path = .ok dir ↔ before.findDirectory path = .ok dir := by
  rw [findDirectory_eq_ok_iff, findDirectory_eq_ok_iff]
  exact land_directory_iff hgrow

theorem isDirectory_grows (hgrow : GrowsBy (FileIn Dir) before after) :
    after.isDirectory path = before.isDirectory path := by
  rw [Bool.eq_iff_iff, isDirectory_iff_findDirectory, isDirectory_iff_findDirectory]
  simp only [findDirectory_grows hgrow]

/-- What has been read is read again when something has been added. -/
theorem read_grows {New : Location → FileNode → Prop} (hgrow : GrowsBy New before after)
    {content : Bytes} (h : before.read path = .ok content) : after.read path = .ok content := by
  obtain ⟨location, hland⟩ := read_eq_ok_iff.mp h
  exact read_eq_ok_iff.mpr ⟨location, land_node_of_grows hgrow hland⟩

theorem findDirectory_of_grows {New : Location → FileNode → Prop}
    (hgrow : GrowsBy New before after) {dir : Location} (h : before.findDirectory path = .ok dir) :
    after.findDirectory path = .ok dir :=
  findDirectory_eq_ok_iff.mpr (land_node_of_grows hgrow (findDirectory_eq_ok_iff.mp h))

end Growth

end TokenCorpus.FileSystem
