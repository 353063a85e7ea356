import CodexTeams.RustStr

/-! Paths of a Unix file system, and absolute paths in normal form. One absolute path is below
another exactly when its names extend the other's. -/
namespace Paths

open RustStr List

def curDir : Str := "."

def parentDir : Str := ".."

/-- A path by its components, as std::path compares them. -/
structure UnixPath where
  absolute : Bool
  parts : List Str
  deriving DecidableEq, Repr

def piecesFrom : Str → Str → List Str
  | buf, [] => [buf]
  | buf, c :: cs => if c = '/' then buf :: piecesFrom [] cs else piecesFrom (buf ++ [c]) cs

def UnixPath.ofStr (text : Str) : UnixPath :=
  let pieces := (piecesFrom [] text).filter fun piece => piece ≠ [] ∧ piece ≠ curDir
  -- "./x" and "x" differ: only the second can stand for the home directory
  if text = curDir ∨ startsWith text "./" then ⟨false, curDir :: pieces⟩
  else ⟨text.head? == some '/', pieces⟩

/-- Path::join: an absolute argument replaces the base. -/
def UnixPath.join (base path : UnixPath) : UnixPath :=
  if path.absolute then path else ⟨base.absolute, base.parts ++ path.parts.filter (· ≠ curDir)⟩

def pushPart (names : List Str) (part : Str) : List Str :=
  if part = curDir then names
  else if part = parentDir then names.dropLast
  else names ++ [part]

/-- The loop of normalize_path for a path that starts at the root. -/
def normalizeParts (parts : List Str) : List Str := parts.foldl pushPart []

/-- A name that is neither `.` nor `..`. -/
def NormalName (name : Str) : Prop := name ≠ curDir ∧ name ≠ parentDir

instance decidableNormalName (name : Str) : Decidable (NormalName name) :=
  inferInstanceAs (Decidable (_ ∧ _))

theorem normal_foldl (h : ∀ name ∈ ns, NormalName name) (ps : List Str) :
    ∀ name ∈ ps.foldl pushPart ns, NormalName name := by
  induction ps generalizing ns with
  | nil => exact h
  | cons p ps ih =>
    apply ih
    intro name hn
    unfold pushPart at hn
    by_cases hc : p = curDir
    · exact h name (by rwa [if_pos hc] at hn)
    · by_cases hp : p = parentDir
      · rw [if_neg hc, if_pos hp] at hn
        exact h name ((dropLast_sublist ns).subset hn)
      · rw [if_neg hc, if_neg hp, mem_append, mem_singleton] at hn
        rcases hn with hn | rfl
        · exact h name hn
        · exact ⟨hc, hp⟩

/-- An absolute path in normal form, as its names from the root. -/
structure AbsolutePathBuf where
  names : List Str
  normal : ∀ name ∈ names, NormalName name
  deriving DecidableEq

namespace AbsolutePathBuf

theorem ext_names {q : AbsolutePathBuf} (h : p.names = q.names) : p = q := by
  obtain ⟨ns, hp⟩ := p
  cases h
  rfl

def ofParts (parts : List Str) : AbsolutePathBuf where
  names := normalizeParts parts
  normal := normal_foldl (fun _ h => absurd h List.not_mem_nil) parts

variable (p : AbsolutePathBuf)

def asPath : UnixPath := ⟨true, p.names⟩

def display : Str :=
  "/" ++ List.intercalate "/" p.names

def fileName : Option Str := p.names.getLast?

def take (k : ℕ) : AbsolutePathBuf where
  names := p.names.take k
  normal := fun name hname => p.normal name (List.mem_of_mem_take hname)

def parent : Option AbsolutePathBuf :=
  if p.names = [] then none else some (p.take (p.names.length - 1))

def ancestors : List AbsolutePathBuf :=
  (List.range (p.names.length + 1)).reverse.map p.take

variable (p base : AbsolutePathBuf)

def stripPrefix : Option (List Str) :=
  base.names.isPrefixOf? p.names

def startsWith : Bool := base.names.isPrefixOf p.names

end AbsolutePathBuf

structure ProcessEnv where
  homeDir : Option UnixPath
  currentDir : Option AbsolutePathBuf

def maybeExpandHomeDirectory (env : ProcessEnv) (path : UnixPath) : UnixPath :=
  match env.homeDir, path.absolute, path.parts with
  | some home, false, first :: rest => if first = "~" then home.join ⟨false, rest⟩ else path
  | _, _, _ => path

namespace AbsolutePathBuf

variable (env : ProcessEnv) (path : UnixPath) (base : AbsolutePathBuf)

/-- Relative paths are taken from the base; nothing here can fail. -/
def resolvePathAgainstBase : AbsolutePathBuf :=
  ofParts (base.asPath.join (maybeExpandHomeDirectory env path)).parts

/-- Only the lookup of the current directory can fail, for a path that is relative. -/
def fromAbsolutePath : Option AbsolutePathBuf :=
  let expanded := maybeExpandHomeDirectory env path
  if expanded.absolute then some (ofParts expanded.parts)
  else env.currentDir.map fun cwd => ofParts (cwd.asPath.join expanded).parts

def join (path : UnixPath) : AbsolutePathBuf :=
  resolvePathAgainstBase env path base

theorem foldl_pushPart (h : ∀ p ∈ parts, NormalName p) (ns : List Str) :
    parts.foldl pushPart ns = ns ++ parts := by
  induction parts generalizing ns with
  | nil => exact (append_nil ns).symm
  | cons p parts ih =>
    have hp := h p mem_cons_self
    rw [foldl_cons, pushPart, if_neg hp.1, if_neg hp.2,
      ih fun o ho => h o (mem_cons_of_mem p ho), append_assoc]
    rfl

theorem normalizeParts_of_normal (h : ∀ p ∈ parts, NormalName p) :
    normalizeParts parts = parts := foldl_pushPart h []

theorem fromAbsolutePath_absolute (h : p.absolute = true) :
    fromAbsolutePath env p = some (ofParts p.parts) := by
  have he : maybeExpandHomeDirectory env p = p := by
    rw [maybeExpandHomeDirectory, h]
    split
    · rename_i ha _
      cases ha
    · rfl
  rw [fromAbsolutePath, he, if_pos h]

@[simp] theorem fromAbsolutePath_asPath (p : AbsolutePathBuf) :
    fromAbsolutePath env p.asPath = some p := by
  rw [fromAbsolutePath_absolute env rfl]
  exact congrArg some (ext_names (normalizeParts_of_normal p.normal))

variable {p : AbsolutePathBuf}

theorem startsWith_iff : p.startsWith b = true ↔ b.names <+: p.names := isPrefixOf_iff_prefix

theorem stripPrefix_eq_some : p.stripPrefix b = some r ↔ b.names ++ r = p.names :=
  List.isPrefixOf?_eq_some_iff_append_eq

theorem maybeExpandHomeDirectory_name {n : Str} (hh : n ≠ "~") :
    maybeExpandHomeDirectory env ⟨false, [n]⟩ = ⟨false, [n]⟩ := by
  unfold maybeExpandHomeDirectory
  split
  · rename_i heq
    cases heq
    exact if_neg hh
  · rfl

theorem join_name (b : AbsolutePathBuf) {n : Str}
    (hh : n ≠ "~") (hn : NormalName n) : (b.join env ⟨false, [n]⟩).names = b.names ++ [n] := by
  have he := maybeExpandHomeDirectory_name env hh
  have hpr : (b.asPath.join ⟨false, [n]⟩).parts = b.names ++ [n] := by
    simp [UnixPath.join, asPath, hn.1]
  have hnr : ∀ part ∈ b.names ++ [n], NormalName part := by
    intro part hp
    rcases mem_append.mp hp with hp | hp
    · exact b.normal part hp
    · exact mem_singleton.mp hp ▸ hn
  unfold join resolvePathAgainstBase ofParts
  rw [he, hpr]
  exact normalizeParts_of_normal hnr

end AbsolutePathBuf

end Paths
