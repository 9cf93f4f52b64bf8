import Mathlib.Data.List.Induction
import Mathlib.Logic.Function.Basic

/-!
# Trees of files

Directories and files under the calls of an operating system, each of them atomic.  A
file has the time of its creation, which stays when it is written or renamed and so
tells whether a handle is of the file that is there.  In a well-formed tree every
file and directory has the directory that it is in (`Tree`), which each call keeps.
-/

namespace Hardy

abbrev Dir := List String

structure File where
  created : Nat
  len : Nat
deriving DecidableEq

/-- Files under keys of a type in each directory.  The root is `[]`. -/
structure FileTree (κ : Type) where
  dirs : Dir → Bool
  files : Dir × κ → Option File

inductive IoError where
  | notFound
  | alreadyExists
deriving DecidableEq

namespace FileTree

variable {κ : Type} [DecidableEq κ]

def set (t : FileTree κ) (p : Dir × κ) (f : Option File) : FileTree κ :=
  { t with files := Function.update t.files p f }

/-- `mkdir`, and success where the directory is there.  The root can always be made. -/
def mkdir (t : FileTree κ) (d : Dir) : Option (FileTree κ) :=
  if d = [] || t.dirs d.dropLast then some { t with dirs := Function.update t.dirs d true }
  else none

def createNew (t : FileTree κ) (p : Dir × κ) (now : Nat) : Except IoError (FileTree κ) :=
  if t.dirs p.1 then
    match t.files p with
    | some _ => .error .alreadyExists
    | none => .ok (t.set p (some ⟨now, 0⟩))
  else .error .notFound

/-- `open` with `create` and `truncate`, and the file that the handle is of. -/
def openTruncate (t : FileTree κ) (p : Dir × κ) (now : Nat) : Option (FileTree κ × Nat) :=
  if t.dirs p.1 then
    let created := (t.files p).elim now File.created
    some (t.set p (some ⟨created, 0⟩), created)
  else none

/-- A write through a handle.  It is lost where the file has been removed. -/
def write (t : FileTree κ) (p : Dir × κ) (handle len : Nat) : FileTree κ :=
  match t.files p with
  | some f => if f.created = handle then t.set p (some { f with len }) else t
  | none => t

def rename (t : FileTree κ) (p q : Dir × κ) : Option (FileTree κ) :=
  (t.files p).map fun f => (t.set p none).set q (some f)

def removeFile (t : FileTree κ) (p : Dir × κ) : FileTree κ := t.set p none

structure Empty (t : FileTree κ) (d : Dir) : Prop where
  dirs : ∀ name, t.dirs (d ++ [name]) = false
  files : ∀ k, t.files (d, k) = none

def removeDir (t : FileTree κ) (d : Dir) : FileTree κ :=
  { t with dirs := Function.update t.dirs d false }

structure Tree (t : FileTree κ) : Prop where
  dirs : ∀ d name, t.dirs (d ++ [name]) = true → t.dirs d = true
  files : ∀ p f, t.files p = some f → t.dirs p.1 = true

section

variable {t t' : FileTree κ} {d d' : Dir} {p q : Dir × κ} {f : Option File}

@[simp] theorem set_dirs : (t.set p f).dirs = t.dirs := rfl

@[simp] theorem set_self : (t.set p f).files p = f := Function.update_self _ _ _

theorem set_of_ne (h : q ≠ p) : (t.set p f).files q = t.files q := Function.update_of_ne h _ _

section

omit [DecidableEq κ]

@[simp] theorem removeDir_files : (t.removeDir d).files = t.files := rfl

theorem removeDir_of_ne (h : d' ≠ d) : (t.removeDir d).dirs d' = t.dirs d' :=
  Function.update_of_ne h _ _

theorem mkdir_eq_some (h : t.mkdir d = some t') : t'.files = t.files ∧ t'.dirs d = true ∧
    ∀ d', t.dirs d' = true → t'.dirs d' = true := by
  rw [mkdir, Option.ite_none_right_eq_some] at h
  obtain ⟨-, h⟩ := h
  cases h
  refine ⟨rfl, Function.update_self _ _ _, fun d' hd => ?_⟩
  dsimp only
  by_cases heq : d' = d
  · rw [heq, Function.update_self]
  · rwa [Function.update_of_ne heq]

theorem mkdir_of_parent (h : t.dirs d.dropLast = true) : ∃ t', t.mkdir d = some t' := by
  rw [mkdir, h, Bool.or_true, if_pos rfl]
  exact ⟨_, rfl⟩

end

theorem createNew_of_none {now : Nat} (hd : t.dirs p.1 = true) (hf : t.files p = none) :
    t.createNew p now = .ok (t.set p (some ⟨now, 0⟩)) := by
  rw [createNew, if_pos hd, hf]

theorem openTruncate_of_dir {now : Nat} (hd : t.dirs p.1 = true) :
    t.openTruncate p now = some (t.set p (some ⟨(t.files p).elim now File.created, 0⟩),
      (t.files p).elim now File.created) := by
  rw [openTruncate, if_pos hd]

theorem write_of_some {g : File} {handle len : Nat} (h : t.files p = some g)
    (hcreated : g.created = handle) : t.write p handle len = t.set p (some { g with len }) := by
  rw [write, h]
  exact if_pos hcreated

theorem rename_of_some {g : File} (h : t.files p = some g) :
    t.rename p q = some ((t.set p none).set q (some g)) := by
  rw [rename, h]
  rfl

omit [DecidableEq κ] in
theorem Tree.ancestor (h : t.Tree) {rest : List String} (hd : t.dirs (d ++ rest) = true) :
    t.dirs d = true := by
  induction rest using List.reverseRecOn with
  | nil => rwa [List.append_nil] at hd
  | append_singleton rest name ih =>
    rw [← List.append_assoc] at hd
    exact ih (h.dirs _ _ hd)

omit [DecidableEq κ] in
theorem Tree.mkdir (h : t.Tree) (hmk : t.mkdir d = some t') : t'.Tree := by
  rw [FileTree.mkdir, Option.ite_none_right_eq_some, Bool.or_eq_true, decide_eq_true_eq] at hmk
  obtain ⟨hparent, hmk⟩ := hmk
  cases hmk
  have hkeep : ∀ d', t.dirs d' = true → Function.update t.dirs d true d' = true := by
    intro d' hd
    by_cases heq : d' = d
    · rw [heq, Function.update_self]
    · rwa [Function.update_of_ne heq]
  refine ⟨fun d' name hd => hkeep d' ?_, fun p f hf => hkeep p.1 (h.files p f hf)⟩
  dsimp only at hd
  by_cases heq : d' ++ [name] = d
  · subst heq
    rcases hparent with hnil | hdir
    · cases List.append_ne_nil_of_right_ne_nil _ (List.cons_ne_nil name []) hnil
    · rwa [List.dropLast_concat] at hdir
  · rw [Function.update_of_ne heq] at hd
    exact h.dirs d' name hd

theorem Tree.set (h : t.Tree) (hf : f.isSome = true → t.dirs p.1 = true) : (t.set p f).Tree := by
  refine ⟨h.dirs, fun q g hg => ?_⟩
  by_cases heq : q = p
  · subst heq
    rw [set_self] at hg
    exact hf (hg ▸ rfl)
  · rw [set_of_ne heq] at hg
    exact h.files q g hg

omit [DecidableEq κ] in
theorem Tree.removeDir (h : t.Tree) (he : t.Empty d) : (t.removeDir d).Tree := by
  refine ⟨fun d' name hd => ?_, fun p f hf => ?_⟩
  · by_cases heq : d' ++ [name] = d
    · have hgone : (t.removeDir d).dirs d = false := Function.update_self _ _ _
      rw [heq, hgone] at hd
      cases hd
    · rw [removeDir_of_ne heq] at hd
      have hne : d' ≠ d := by
        rintro rfl
        rw [he.dirs] at hd
        cases hd
      rw [removeDir_of_ne hne]
      exact h.dirs d' name hd
  · have hne : p.1 ≠ d := by
      intro heq
      have := he.files p.2
      rw [← heq] at this
      rw [removeDir_files, this] at hf
      cases hf
    rw [removeDir_of_ne hne]
    exact h.files p f hf

end

end FileTree

end Hardy
