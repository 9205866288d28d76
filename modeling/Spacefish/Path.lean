import Spacefish.Basic

/-!
Path handling: the row hash, the comparison of paths, the construction of an
absolute path, and the test for paths that bypass the store.
-/

namespace Spacefish

/-- One round of the hash, on the 64-bit accumulator. -/
def hashStep (h : Nat) (c : Byte) : Nat := (((h * 32) + h) + c.toNat) % 2 ^ 64

/-- `hash`: a byte above 127 is a negative `char` and ends the process. -/
def hashFrom : Nat → Path → Except UErr Nat
  | h, [] => .ok (h % hashTableSize)
  | h, c :: rest =>
      if c.toNat < 128 then hashFrom (hashStep h c) rest
      else .error .badHashFunctionInput

def hash (str : Path) : Except UErr Nat := hashFrom 5381 str

/-- The row of a path, or the end of the process. -/
def hashRow {σ : Type} (str : Path) : Op σ Nat :=
  match hash str with
  | .ok h => pure h
  | .error e => throw (.exit e)

/-- `!strncmp(a, b, PATH_MAX)`. -/
def samePath (a b : Path) : Bool := a.take pathMax == b.take pathMax

/-- The bytes of `"/dev/"` and `"/proc/"`. -/
def exlist : List Path := [[47, 100, 101, 118, 47], [47, 112, 114, 111, 99, 47]]

/-- `strstr(path, sub) != NULL`. -/
def hasInfix (sub : Path) : Path → Bool
  | [] => sub.isEmpty
  | c :: rest => sub.isPrefixOf (c :: rest) || hasInfix sub rest

def exclusivePath (path : Path) : Bool := exlist.any (fun sub => hasInfix sub path)

/-- The result of `build_abs_path`: 0 with a path, 1, or -1. -/
inductive AbsPath where
  | built (path : Path)
  | alreadyAbsolute
  | failed
  deriving DecidableEq, Repr

/-- The character at a position of a C string, NUL behind its end. -/
def charAt (p : Path) (i : Nat) : Byte := p.getD i 0

/-- The part of `p` before its last `/`; the code writes through the result of
`strrchr` without a test. -/
def beforeLastSlash {σ : Type} (p : Path) : Op σ Path :=
  if p.contains 47 then
    pure (p.reverse.dropWhile (fun c => c != 47)).tail.reverse
  else throw .undefined

/-- A string assembled in a buffer of `PATH_MAX` bytes; a longer one, counting
its NUL, is written past the end of the buffer. -/
def inPathBuffer {σ : Type} (p : Path) : Op σ Path :=
  if p.length < pathMax then pure p else throw .undefined

def getcwd {σ : Type} (env : Env) : Op σ Path :=
  match env.cwd with
  | some p => pure p
  | none => throw (.exit .getcwd)

/-- `build_abs_path`. The character `.` is 46 and `/` is 47. -/
def buildAbsPath {σ : Type} (env : Env) (p : Path) : Op σ AbsPath := do
  if p.length > pathMax then
    return .failed
  if charAt p 0 = 47 ∧ charAt p 1 ≠ 46 then
    return .alreadyAbsolute
  if p.length > 1 ∧ charAt p 0 = 46 ∧ charAt p 1 = 46 ∧ charAt p 2 = 0 then
    let tmp ← getcwd env
    let parent ← beforeLastSlash tmp
    let abs ← inPathBuffer parent
    return .built abs
  if p.length > 1 ∧ charAt p 0 = 46 ∧ charAt p 1 = 46 then
    if charAt p 2 ≠ 47 then
      return .failed
    let tmp ← inPathBuffer p
    let cwd ← getcwd env
    let parent ← beforeLastSlash cwd
    let abs ← inPathBuffer (parent ++ [47] ++ tmp.drop 3)
    return .built abs
  if p.length > 1 ∧ charAt p 0 = 46 ∧ charAt p 1 = 47 then
    let tmp ← inPathBuffer p
    let cwd ← getcwd env
    let abs ← inPathBuffer (cwd ++ [47] ++ tmp.drop 2)
    return .built abs
  if (charAt p 0 ≠ 47 ∧ charAt p 0 ≠ 46) ∨
      (charAt p 0 = 46 ∧ charAt p 1 ≠ 46 ∧ charAt p 1 ≠ 47) then
    let cwd ← getcwd env
    let abs ← inPathBuffer (cwd ++ [47] ++ p)
    return .built abs
  if charAt p 0 = 46 ∧ charAt p 1 = 0 then
    let cwd ← getcwd env
    let abs ← inPathBuffer (cwd ++ [47])
    return .built abs
  return .failed

/-- The macro `BUILD_ABS_PATH_1`: the built path, or the argument itself. -/
def buildAbsPath1 {σ : Type} (env : Env) (p : Path) : Op σ Path := do
  match ← buildAbsPath env p with
  | .built abs => return abs
  | .alreadyAbsolute => return p
  | .failed => return p

end Spacefish
