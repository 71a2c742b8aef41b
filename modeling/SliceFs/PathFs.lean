import SliceFs.ProgramLogic

/-!
# A directory tree

Files and directories by their paths, and the calls that a program makes on them. A path
lists its names from the innermost one outwards; the empty path is the directory that all
paths are relative to.
-/
namespace PathFs
open ProgramLogic

/-- The kinds of errors of these calls, and of reading past the end of a file. -/
inductive IoErrorKind where
  | notFound | alreadyExists | notADirectory | isADirectory | unexpectedEof
deriving DecidableEq, Repr

abbrev Path (N : Type) := List N

inductive Node (D : Type) where
  | dir
  | file (data : D)
deriving DecidableEq, Repr

abbrev Tree (N D : Type) := Path N → Option (Node D)

section
variable {N D : Type} [DecidableEq N]

def exists? (p : Path N) : Prog (Tree N D) IoErrorKind Bool := Prog.read fun t => (t p).isSome

/-- A directory, unless there is one. -/
def makeDir (p : Path N) : Prog (Tree N D) IoErrorKind Unit := fun t =>
  match t p with
  | some .dir => (.ok (), t)
  | some (.file _) => (.error (.err .alreadyExists), t)
  | none => (.ok (), Function.update t p (some .dir))

/-- A directory with all directories on the way to it. -/
def createDirAll : Path N → Prog (Tree N D) IoErrorKind Unit
  | [] => makeDir []
  | x :: p => do
      Prog.mapErr (fun _ => .notADirectory) (createDirAll p)
      makeDir (x :: p)

/-- Whether a file may be put at a path: its parent is a directory, and the path is not. -/
def placeable (t : Tree N D) : Path N → Except IoErrorKind Unit
  | [] => .error .isADirectory
  | x :: p =>
      match t p, t (x :: p) with
      | none, _ => .error .notFound
      | some (.file _), _ => .error .notADirectory
      | some .dir, some .dir => .error .isADirectory
      | some .dir, _ => .ok ()

/-- A file is created, or its content replaced. -/
def write (p : Path N) (data : D) : Prog (Tree N D) IoErrorKind Unit := fun t =>
  match placeable t p with
  | .error e => (.error (.err e), t)
  | .ok _ => (.ok (), Function.update t p (some (.file data)))

/-- A file moves, over another one if there is one. -/
def renameFile (source target : Path N) : Prog (Tree N D) IoErrorKind Unit := fun t =>
  match t source, placeable t target with
  | none, _ => (.error (.err .notFound), t)
  | some .dir, _ => (.error (.err .isADirectory), t)
  | some (.file _), .error e => (.error (.err e), t)
  | some (.file data), .ok _ =>
      (.ok (), Function.update (Function.update t source none) target (some (.file data)))

def readFile (p : Path N) : Prog (Tree N D) IoErrorKind D := fun t =>
  match t p with
  | none => (.error (.err .notFound), t)
  | some .dir => (.error (.err .isADirectory), t)
  | some (.file data) => (.ok data, t)

def removeFile (p : Path N) : Prog (Tree N D) IoErrorKind Unit := fun t =>
  match t p with
  | none => (.error (.err .notFound), t)
  | some .dir => (.error (.err .isADirectory), t)
  | some (.file _) => (.ok (), Function.update t p none)

variable {t : Tree N D} {p : Path N}

/-- A tree with a directory at a path and on the way to it. -/
def withDirs (t : Tree N D) (p : Path N) : Tree N D := fun q => if q <:+ p then some .dir else t q

theorem makeDir_eq (h : ∀ data, t p ≠ some (.file data)) :
    makeDir p t = (.ok (), Function.update t p (some .dir)) := by
  unfold makeDir
  rcases hp : t p with _ | _ | data
  · rfl
  · have hsame : Function.update t p (some .dir) = t := by rw [← hp, Function.update_eq_self]
    rw [hsame]
  · exact absurd hp (h data)

theorem createDirAll_eq (h : ∀ q, q <:+ p → ∀ data, t q ≠ some (.file data)) :
    createDirAll p t = (.ok (), withDirs t p) := by
  induction p with
  | nil =>
      rw [createDirAll, makeDir_eq (h [] (List.suffix_refl []))]
      congr 1
      funext q
      simp [withDirs, Function.update_apply]
  | cons x p ih =>
      have hparent := ih fun q hq => h q (hq.trans (List.suffix_cons x p))
      have hself : ∀ data, withDirs t p (x :: p) ≠ some (.file data) := by
        intro data
        have hnot : ¬ x :: p <:+ p := fun hs => by
          have := hs.length_le
          simp at this
        rw [withDirs, if_neg hnot]
        exact h _ (List.suffix_refl _) data
      rw [createDirAll, Prog.bind_ok (Prog.mapErr_ok _ hparent), makeDir_eq hself]
      congr 1
      funext q
      simp only [withDirs, Function.update_apply, List.suffix_cons_iff]
      by_cases hq : q = x :: p <;> simp [hq]

omit [DecidableEq N] in
theorem placeable_eq_ok {x : N} (hdir : t p = some .dir) (h : t (x :: p) ≠ some .dir) :
    placeable t (x :: p) = .ok () := by
  rw [placeable, hdir]
  rcases hx : t (x :: p) with _ | _ | data
  · rfl
  · exact absurd hx h
  · rfl

theorem write_eq {x : N} (hdir : t p = some .dir) (h : t (x :: p) ≠ some .dir) (data : D) :
    write (x :: p) data t = (.ok (), Function.update t (x :: p) (some (.file data))) := by
  rw [write, placeable_eq_ok hdir h]

theorem renameFile_eq {source : Path N} {x : N} {data : D} (hsource : t source = some (.file data))
    (hdir : t p = some .dir) (h : t (x :: p) ≠ some .dir) :
    renameFile source (x :: p) t =
      (.ok (), Function.update (Function.update t source none) (x :: p) (some (.file data))) := by
  rw [renameFile, hsource, placeable_eq_ok hdir h]

end

end PathFs
