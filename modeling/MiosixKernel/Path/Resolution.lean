import MiosixKernel.Lib.Loop
import MiosixKernel.Lib.Separated
import MiosixKernel.Util.Errno

/-!
# Path resolution

`FilesystemManager::resolvePath` finds the filesystem that a path belongs to, and rewrites the path in place
without `.`, `..`, empty components and symbolic links.

* `PathResolution`: the members of the class, and the string;
* `upPathComponent`, `recursiveFindFs`, `normalPathComponent`, `followSymlink`: one component;
* `resolvePath`: the loop over the components.
-/

namespace Miosix

open Lib

def PATH_MAX : ℕ := 512

/-- What `st_mode` tells about a file. -/
inductive FileType where
  | directory
  | link
  | other
deriving DecidableEq

/-- The mounted filesystems, by the path where they are mounted, and what path resolution asks them.
Results of `lstat` and `readlink` that are not negative are a success. -/
structure Filesystems (F : Type) where
  filesystems : List Char → Option F
  supportsSymlinks : F → Bool
  lstat : F → List Char → ℤ × FileType
  readlink : F → List Char → ℤ × List Char

structure ResolvedPath (F : Type) where
  result : ℤ
  fs : Option F
  off : ℕ
deriving DecidableEq

/-- `ResolvedPath(int result)` -/
def ResolvedPath.error {F : Type} (result : ℤ) : ResolvedPath F := ⟨result, none, 0⟩

/-- What resolution must not do: use an index that is out of the string, or go on forever. -/
inductive PathFault where
  | outOfRange
  | stuck
deriving DecidableEq

structure PathResolution (F : Type) where
  path : List Char
  root : F
  fs : F
  /-- Does the current filesystem support symbolic links? -/
  syms : Bool
  /-- The first character that was not handled. -/
  index : ℕ
  /-- Where the path in the current filesystem starts. -/
  indexIntoFs : ℕ
  /-- One more than the components of the path in the current filesystem. -/
  depthIntoFs : ℤ
  linksFollowed : ℤ

namespace PathResolution

variable {F : Type} (env : Filesystems F)

def maxLinkToFollow : ℤ := 2

/-- `StringPart(path, idx, off)` -/
def stringPart (path : List Char) (idx off : ℕ) : List Char := (path.take idx).drop off

/-- `path.erase(pos, n)` throws if `pos` is beyond the end. -/
def erasePath (path : List Char) (pos n : ℕ) : Except PathFault (List Char) :=
  match erase path pos n with
  | some path => .ok path
  | none => .error .outOfRange

/-- One step back in the search of `recursiveFindFs`, from `backIndex`. -/
def findFsStep (s : PathResolution F × ℕ) :
    Except PathFault (Flow (PathResolution F × ℕ) (ℤ × PathResolution F)) :=
  let (p, backIndex) := s
  match findLastOf p.path '/' (backIndex - 1) with
  | none => .ok (.done (-ENOENT, p))
  | some backIndex =>
    if backIndex = 0 then .ok (.done (0, { p with fs := p.root, indexIntoFs := 1 }))
    else
      match env.filesystems (stringPart p.path backIndex 0) with
      | some fs => .ok (.done (0, { p with fs := fs, indexIntoFs := backIndex + 1 }))
      | none => .ok (.next ({ p with depthIntoFs := p.depthIntoFs + 1 }, backIndex))

def recursiveFindFs (fuel : ℕ) (p : PathResolution F) : Except PathFault (ℤ × PathResolution F) := do
  let (result, p) ← forever .stuck (findFsStep env) fuel ({ p with depthIntoFs := 1 }, p.index)
  if result < 0 then return (result, p)
  return (0, { p with syms := env.supportsSymlinks p.fs })

/-- `path[slash]` is the `/` after the `..` -/
def upPathComponent (fuel : ℕ) (p : PathResolution F) (slash : ℕ) :
    Except PathFault (ℤ × PathResolution F) := do
  if p.index ≤ 1 then return (-ENOENT, p)
  match findLastOf p.path '/' (p.index - 2) with
  | none => return (-ENOENT, p)
  | some removeStart =>
    let path ← erasePath p.path removeStart (slash - removeStart)
    let path := if path.isEmpty then ['/'] else path
    let p := { p with
      path := path
      index := removeStart + 1
      indexIntoFs := if p.indexIntoFs > path.length then path.length else p.indexIntoFs
      depthIntoFs := p.depthIntoFs - 1 }
    if p.depthIntoFs > 0 then return (0, p)
    recursiveFindFs env fuel p

def followSymlink (p : PathResolution F) : Except PathFault (ℤ × PathResolution F) := do
  let p := { p with linksFollowed := p.linksFollowed + 1 }
  if p.linksFollowed ≥ maxLinkToFollow then return (-ELOOP, p)
  let (result, target) := env.readlink p.fs (stringPart p.path (p.index - 1) p.indexIntoFs)
  -- `int res = fs->readlink(sp,target)<0` is one if there was an error
  if result < 0 then return (1, p)
  match target with
  | [] => return (-ENOENT, p)
  | c :: _ =>
    let rest := if p.index ≤ p.path.length then p.path.drop (p.index - 1) else []
    if c = '/' then
      if target.length + p.path.length + 1 - p.index > PATH_MAX then return (-ENAMETOOLONG, p)
      return (0, { p with
        path := target ++ rest
        fs := p.root
        syms := env.supportsSymlinks p.root
        index := 1
        indexIntoFs := 1
        depthIntoFs := 1 })
    else
      match findLastOf p.path '/' (p.index - 2) with
      | none => throw .outOfRange
      | some removeStart =>
        if p.path.length - (p.index - removeStart - 2) + target.length > PATH_MAX then
          return (-ENAMETOOLONG, p)
        return (0, { p with
          path := p.path.take (removeStart + 1) ++ target ++ rest
          index := removeStart + 1
          depthIntoFs := p.depthIntoFs - 1 })

def normalPathComponent (p : PathResolution F) (followIfSymlink : Bool) :
    Except PathFault (ℤ × PathResolution F) := do
  match env.filesystems (stringPart p.path (p.index - 1) 0) with
  | some fs =>
    return (0, { p with
      fs := fs
      syms := env.supportsSymlinks fs
      indexIntoFs := if p.index > p.path.length then p.index - 1 else p.index
      depthIntoFs := 1 })
  | none =>
    let p := { p with depthIntoFs := p.depthIntoFs + 1 }
    if p.syms && followIfSymlink then
      let (result, st_mode) := env.lstat p.fs (stringPart p.path (p.index - 1) p.indexIntoFs)
      -- `int res = fs->lstat(sp,&st)<0` is one if there was an error
      if result < 0 then return (1, p)
      if st_mode = .link then followSymlink env p
      else if p.index ≤ p.path.length ∧ st_mode ≠ .directory then return (-ENOTDIR, p)
      else return (0, p)
    else return (0, p)

/-- One component, up to `slash`. -/
def component (fuel : ℕ) (followLastSymlink : Bool) (p : PathResolution F) (slash : ℕ) :
    Except PathFault (ℤ × PathResolution F) := do
  if slash = p.index then
    let path ← erasePath p.path p.index 1
    return (0, { p with path := path })
  else if slash - p.index = 1 ∧ p.path[p.index]? = some '.' then
    let path ← erasePath p.path p.index 2
    return (0, { p with path := path })
  else if slash - p.index = 2 ∧ p.path[p.index]? = some '.' ∧ p.path[p.index + 1]? = some '.' then
    upPathComponent env fuel p slash
  else
    let p := { p with index := slash + 1 }
    normalPathComponent env p (if p.index > p.path.length then followLastSymlink else true)

/-- The last component was handled. -/
def finish (p : PathResolution F) : Except PathFault (List Char × ResolvedPath F) :=
  let last := p.path.length - 1
  match p.path[last]? with
  | none => .error .outOfRange
  | some c =>
    if c = '/' then do
      let path ← erasePath p.path last 1
      return (path, ⟨0, some p.fs, if p.indexIntoFs > path.length then path.length else p.indexIntoFs⟩)
    else .ok (p.path, ⟨0, some p.fs, p.indexIntoFs⟩)

/-- One pass through the loop. -/
def pass (fuel : ℕ) (followLastSymlink : Bool) (p : PathResolution F) :
    Except PathFault (Flow (PathResolution F) (List Char × ResolvedPath F)) := do
  let slash := (findFirstOf p.path '/' p.index).getD p.path.length
  let (result, p) ← component env fuel followLastSymlink p slash
  if result < 0 then return .done (p.path, .error result)
  if p.index ≥ p.path.length then
    let r ← p.finish
    return .done r
  return .next p

/-- `PathResolution::resolvePath` -/
def resolvePath (fuel : ℕ) (path : List Char) (followLastSymlink : Bool) :
    Except PathFault (List Char × ResolvedPath F) :=
  match env.filesystems ['/'] with
  | none => .ok (path, .error (-ENOENT))
  | some root =>
    forever .stuck (pass env fuel followLastSymlink) fuel
      ⟨path, root, root, env.supportsSymlinks root, 1, 1, 1, 0⟩

end PathResolution

/-- `FilesystemManager::resolvePath` -/
def Filesystems.resolvePath {F : Type} (env : Filesystems F) (fuel : ℕ) (path : List Char)
    (followLastSymlink : Bool) : Except PathFault (List Char × ResolvedPath F) :=
  if path.length > PATH_MAX then .ok (path, .error (-ENAMETOOLONG))
  else if path.isEmpty ∨ path[0]? ≠ some '/' then .ok (path, .error (-ENOENT))
  else PathResolution.resolvePath env fuel path followLastSymlink

end Miosix
