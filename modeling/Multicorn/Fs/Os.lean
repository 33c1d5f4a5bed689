import Mathlib.Data.List.AList

/-! The operating system under the file wrapper: a tree of directories and files without
links, inodes, and the descriptors of the process. -/
namespace Multicorn.Fs

abbrev Str := List Char
abbrev Bytes := List UInt8

scoped instance lawfulBEqStr : LawfulBEq Str := inferInstance

/-- The names that lead from `/` to a file or directory. -/
abbrev Path := List Str

/-- How a call fails. `valueError` stands for the `ValueError` that Python raises without making
the call. -/
inductive Errno
  | ENOENT
  | EEXIST
  | ENOTDIR
  | EISDIR
  | EBADF
  | EINVAL
  | EIO
  | ENAMETOOLONG
  | valueError
  deriving DecidableEq

inductive Node
  | dir
  | file (inode : ℕ)
  deriving DecidableEq

structure OpenFile where
  node : Node
  rdwr : Bool
  deriving DecidableEq

/-- What a backend keeps while it runs: its working directory, and the bytes of a character in the
file system encoding, which has some for the ASCII characters. -/
structure Process where
  cwd : Path
  encodeChar : Char → Option Bytes
  encodeChar_ascii : ∀ c : Char, c.toNat < 128 → (encodeChar c).isSome = true

/-- `str.encode` with the file system encoding. -/
def Process.encode (process : Process) (s : Str) : Option Bytes :=
  (s.mapM process.encodeChar).map List.flatten

/-- Whether Python makes a call for a path: no character is null, and each has bytes. -/
def Process.passes (process : Process) (path : Str) : Bool :=
  path.all fun c => c ≠ '\x00' && (process.encodeChar c).isSome

/-- Whether a name is short enough for an entry of a directory. -/
def Process.fits (process : Process) (name : Str) : Bool :=
  ((process.encode name).getD []).length ≤ 255

/-- `content` is kept by inode, so a descriptor still reads and writes a file that has been
unlinked. `faults` tells which of the coming calls fail, and how (none, once it is empty), and
`touched` holds the paths of the calls so far. -/
structure Os where
  process : Process
  nodes : AList (fun _ : Path => Node)
  content : ℕ → Bytes
  nextInode : ℕ
  fds : List (Option OpenFile)
  umask : ℕ
  faults : List (Option Errno)
  touched : List Str

abbrev Call := EStateM Errno Os

namespace Os

def node (os : Os) (p : Path) : Option Node :=
  if p = [] then some .dir else os.nodes.lookup p

/-- Path resolution: every component must be looked up in a directory, by a name that fits. -/
def walk (os : Os) (cur : Path) : List Str → Except Errno Path
  | [] => .ok cur
  | c :: rest =>
    match os.node cur with
    | some .dir =>
      if c = [] ∨ c = ['.'] then os.walk cur rest
      else if c = ['.', '.'] then os.walk cur.dropLast rest
      else if os.process.fits c then os.walk (cur ++ [c]) rest
      else .error .ENAMETOOLONG
    | some (.file _) => .error .ENOTDIR
    | none => .error .ENOENT

def resolve (os : Os) (path : Str) : Except Errno Path :=
  if path = [] then .error .ENOENT
  else if ¬ os.process.passes path then .error .valueError
  else os.walk (if path.head? = some '/' then [] else os.process.cwd) (path.splitOn '/')

/-- What a path string names, for `stat`. -/
def stat (os : Os) (path : Str) : Option Node :=
  match os.resolve path with
  | .ok p => os.node p
  | .error _ => none

def exists? (os : Os) (path : Str) : Bool := (os.stat path).isSome

def isfile (os : Os) (path : Str) : Bool :=
  match os.stat path with
  | some (.file _) => true
  | _ => false

def fd (os : Os) (fd : ℕ) : Option OpenFile := (os.fds[fd]?).join

/-- The lowest free descriptor. -/
def freeFd (os : Os) : ℕ := os.fds.findIdx Option.isNone

def withFd (os : Os) (fd : ℕ) (file : Option OpenFile) : Os :=
  { os with fds := if fd < os.fds.length then os.fds.set fd file else os.fds ++ [file] }

def withNode (os : Os) (p : Path) (node : Node) : Os :=
  { os with nodes := os.nodes.insert p node }

def withContent (os : Os) (inode : ℕ) (data : Bytes) : Os :=
  { os with content := Function.update os.content inode data }

def touch (os : Os) (path : Str) : Os := { os with touched := path :: os.touched }

end Os

/-- The start of every call: it may be one that fails. -/
def enter : Call Unit := fun os =>
  match os.faults with
  | [] => .ok () os
  | none :: faults => .ok () { os with faults }
  | some e :: faults => .error e { os with faults }

def resolveCall (path : Str) : Call Path := do
  modify (·.touch path)
  match (← get).resolve path with
  | .ok p => return p
  | .error e => throw e

structure OpenFlags where
  rdwr : Bool
  creat : Bool
  excl : Bool
  deriving DecidableEq

def allocFd (file : OpenFile) : Call ℕ := fun os =>
  .ok os.freeFd (os.withFd os.freeFd (some file))

/-- Whether a path ends in a slash that follows a name. -/
def endsInSlash (path : Str) : Bool :=
  path.getLast? = some '/' && ((path.splitOn '/').filter (· ≠ [])).getLast?.any fun name =>
    name ≠ ['.'] && name ≠ ['.', '.']

/-- How `os.open` fails where it is to make what is there. -/
def takenError (path : Str) : Errno := if endsInSlash path then .EISDIR else .EEXIST

/-- `os.open`. A directory can only be opened for reading. -/
def osOpen (path : Str) (flags : OpenFlags) : Call ℕ := do
  enter
  let p ← resolveCall path
  match (← get).node p with
  | some node =>
    if flags.creat && flags.excl then throw (takenError path)
    else if node = .dir ∧ (flags.rdwr || flags.creat) then throw .EISDIR
    else allocFd ⟨node, flags.rdwr⟩
  | none =>
    if flags.creat then
      let inode := (← get).nextInode
      modify fun os => { (os.withNode p (.file inode)).withContent inode [] with
        nextInode := inode + 1 }
      allocFd ⟨.file inode, flags.rdwr⟩
    else throw .ENOENT

def getFd (fd : ℕ) : Call OpenFile := do
  match (← get).fd fd with
  | some file => return file
  | none => throw .EBADF

/-- `fcntl.fcntl(fd, fcntl.F_GETFL) & os.O_RDWR`. -/
def isRdwr (fd : ℕ) : Call Bool := do
  enter
  return (← getFd fd).rdwr

/-- `fcntl.flock`, which waits while another descriptor of the same inode holds a lock. The waiting
is left out: a backend that waits for its own lock does so for good. -/
def flock (fd : ℕ) : Call Unit := do
  enter
  discard <| getFd fd

def osClose (fd : ℕ) : Call Unit := do
  enter
  discard <| getFd fd
  modify fun os => os.withFd fd none

/-- The inode behind a descriptor. -/
def getInode (fd : ℕ) : Call ℕ := do
  match (← getFd fd).node with
  | .file inode => return inode
  | .dir => throw .EISDIR

/-- `os.ftruncate(fd, 0)`. -/
def ftruncate (fd : ℕ) : Call Unit := do
  enter
  let inode ← getInode fd
  if (← getFd fd).rdwr then modify fun os => os.withContent inode []
  else throw .EINVAL

/-- `lseek(fd, 0)`, then one `write` of `data` over what is there. -/
def writeStart (fd : ℕ) (data : Bytes) : Call Unit := do
  enter
  let inode ← getInode fd
  if (← getFd fd).rdwr then
    modify fun os => os.withContent inode (data ++ (os.content inode).drop data.length)
  else throw .EBADF

/-- `lseek(fd, 0)`, then `read` to the end. -/
def readStart (fd : ℕ) : Call Bytes := do
  enter
  let inode ← getInode fd
  return (← get).content inode

def unlink (path : Str) : Call Unit := do
  enter
  let p ← resolveCall path
  match (← get).node p with
  | some (.file _) => modify fun os => { os with nodes := os.nodes.erase p }
  | some .dir => throw .EISDIR
  | none => throw .ENOENT

def mkdir (path : Str) : Call Unit := do
  enter
  let p ← resolveCall path
  match (← get).node p with
  | some _ => throw .EEXIST
  | none => modify fun os => os.withNode p .dir

def umask (mask : ℕ) : Call ℕ := do
  let old := (← get).umask
  modify fun os => { os with umask := mask }
  return old

/-- `os.path.exists`. -/
def pathExists (path : Str) : Call Bool := do
  modify (·.touch path)
  return (← get).exists? path

/-- `os.path.isfile`. -/
def pathIsfile (path : Str) : Call Bool := do
  modify (·.touch path)
  return (← get).isfile path

/-- The entries of a directory, in the order the system gives them. -/
def Os.children (os : Os) (p : Path) : List Str :=
  os.nodes.keys.filterMap fun q => if q.dropLast = p then q.getLast? else none

def listdir (path : Str) : Call (List Str) := do
  enter
  let p ← resolveCall path
  match (← get).node p with
  | some .dir => return (← get).children p
  | some (.file _) => throw .ENOTDIR
  | none => throw .ENOENT

/-- `posixpath.split`, which takes the slashes off the end of a head that is not all slashes. -/
def pathSplit (p : Str) : Str × Str :=
  let tail := (p.reverse.takeWhile (· ≠ '/')).reverse
  let head := p.take (p.length - tail.length)
  (if head.all (· = '/') then head else (head.reverse.dropWhile (· = '/')).reverse, tail)

def dirname (p : Str) : Str := (pathSplit p).1

/-- `posixpath.join` of one more component. -/
def joinOne (path b : Str) : Str :=
  if b.head? = some '/' then b
  else if path = [] ∨ path.getLast? = some '/' then path ++ b
  else path ++ '/' :: b

def pathJoin (root : Str) (parts : List Str) : Str := parts.foldl joinOne root

theorem pathSplit_length (p : Str) : (pathSplit p).1.length + (pathSplit p).2.length ≤ p.length := by
  have htail : ((p.reverse.takeWhile (· ≠ '/')).reverse).length ≤ p.length := by
    have hle := (List.takeWhile_sublist (l := p.reverse) (· ≠ '/')).length_le
    simpa using hle
  have hstrip : ∀ head : Str, ((head.reverse.dropWhile (· = '/')).reverse).length ≤ head.length := by
    intro head
    have hle := (List.dropWhile_sublist (l := head.reverse) (· = '/')).length_le
    simpa using hle
  unfold pathSplit
  simp only
  split_ifs
  · rw [List.length_take]
    omega
  · have hle := hstrip (p.take (p.length - ((p.reverse.takeWhile (· ≠ '/')).reverse).length))
    rw [List.length_take] at hle
    omega

/-- `makedirs` splits once more when the path ends in a slash. -/
def splitLast (name : Str) : Str × Str :=
  if (pathSplit name).2 = [] then pathSplit (pathSplit name).1 else pathSplit name

theorem splitLast_length {name : Str} (h : (splitLast name).2 ≠ []) :
    (splitLast name).1.length < name.length := by
  have hfirst := pathSplit_length name
  have hsecond := pathSplit_length (pathSplit name).1
  have hpos := List.length_pos_iff.mpr h
  unfold splitLast at hpos ⊢
  split_ifs at hpos ⊢ <;> omega

/-- `os.makedirs`. -/
def makedirs (name : Str) : Call Unit := do
  if _h : (splitLast name).1 ≠ [] ∧ (splitLast name).2 ≠ [] then
    if ← pathExists (splitLast name).1 then mkdir name
    else
      tryCatch (makedirs (splitLast name).1) fun e => if e = .EEXIST then pure () else throw e
      if (splitLast name).2 = ['.'] then return
      else mkdir name
  else mkdir name
termination_by name.length
decreasing_by exact splitLast_length _h.2

end Multicorn.Fs
