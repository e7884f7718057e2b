import NetLab.Library.Blocks
import NetLab.Library.CString

/-!
# What the web server runs on

The file system and the connection answer the calls of a client thread, the
thread's arrays have fixed sizes, and what it does is a list of effects.
-/

namespace NetLab
namespace Np20

/-- `INT_MAX`. -/
def intMax : Nat := 2 ^ 31 - 1

/-- The conversion of a `long` to an `int`. -/
def toInt32 (n : Int) : Int := n.bmod (2 ^ 32)

/-- The arrays of `ClientThread`. -/
inductive Buffer where
  | method | path | decodedPath | ok | response | name | fullpath | boundaryStr | htmlResponse
  deriving DecidableEq, Repr

def Buffer.size : Buffer → Nat
  | method => 8
  | path | decodedPath | ok | response | name => 1024
  | fullpath | htmlResponse => 2048
  | boundaryStr => 256

/-- What has no defined outcome in C, and the loop that does not end. -/
inductive Fault where
  | overflow (buffer : Buffer)
  | emptyPath
  | nullPartBody
  | contentLength
  /-- The counter of a header loop is no `int` any more; `realloc` returns no
  memory and the byte is written all the same. -/
  | headerLength
  /-- The length in `Append` is no `int` any more, with the same effect. -/
  | pageLength
  /-- A counter that only ends a loop is no `int` any more. -/
  | intOverflow
  | allocation
  | hang
  deriving DecidableEq, Repr

/-- A text and its NUL written into an array. -/
def Buffer.put (buffer : Buffer) (text : Bytes) : Except Fault Bytes :=
  if text.length < buffer.size then .ok text else .error (.overflow buffer)

/-- `DT_DIR`. -/
def dtDir : UInt8 := 4

/-- A `struct dirent`. -/
structure Dirent where
  name : Bytes
  dType : UInt8
  name_ne : name ≠ []
  nul_notMem : 0 ∉ name
  slash_notMem : 47 ∉ name

/-- `block_size` of the download loop. -/
def blockSize : Nat := 1024 * 1024

/-- A file that is open for reading: its length as `ftell` tells it, and what
the calls of `fread` for `blockSize` bytes return. -/
structure Opened where
  length : Int
  freads : List Bytes

/-- A regular file that does not change while it is read. -/
def Opened.ofFile (content : Bytes) : Opened where
  length := content.length
  freads := Blocks.blocks blockSize content (content.length / blockSize + 1)

/-- The answers of the file system. -/
structure Host where
  /-- The entries of a directory in the order that `scandir` leaves them in.
  `Compare` is no order on files of different types, so it can be any. -/
  scandir : Bytes → List Dirent
  /-- `fopen` for reading. -/
  fopen : Bytes → Option Opened
  /-- Whether `fopen` for writing succeeds. -/
  creates : Bytes → Bool
  /-- The size that the check after an upload sees. -/
  verify : Bytes → Option Int

/-- What a client thread does to the file system and to the connection. -/
inductive Effect where
  | scandir (path : Bytes)
  | openRead (path : Bytes)
  | create (path : Bytes)
  | append (path data : Bytes)
  | send (data : Bytes)
  deriving DecidableEq, Repr

/-- The contents of the files after one effect. -/
def Effect.apply (files : Bytes → Option Bytes) : Effect → Bytes → Option Bytes
  | create path => Function.update files path (some [])
  | append path data => Function.update files path ((files path).map (· ++ data))
  | scandir _ | openRead _ | send _ => files

/-- The contents of the files after a run. -/
def filesAfter (files : Bytes → Option Bytes) (effects : List Effect) : Bytes → Option Bytes :=
  effects.foldl Effect.apply files

/-- The same where paths lead to files of a disk, several to one perhaps. -/
def Effect.applyAt {κ : Type*} [DecidableEq κ] (leads : Bytes → κ) (disk : κ → Option Bytes) :
    Effect → κ → Option Bytes
  | create path => Function.update disk (leads path) (some [])
  | append path data => Function.update disk (leads path) ((disk (leads path)).map (· ++ data))
  | scandir _ | openRead _ | send _ => disk

def diskAfter {κ : Type*} [DecidableEq κ] (leads : Bytes → κ) (disk : κ → Option Bytes)
    (effects : List Effect) : κ → Option Bytes :=
  effects.foldl (Effect.applyAt leads) disk

/-- Keyed by their paths, the files are a disk on which every path leads to its own
file. -/
theorem diskAfter_id (files : Bytes → Option Bytes) (effects : List Effect) :
    diskAfter id files effects = filesAfter files effects := by
  have happly : Effect.applyAt id = Effect.apply := by
    funext files e
    cases e <;> rfl
  rw [diskAfter, happly, filesAfter]

theorem toInt32_of_le {n : Nat} (h : n ≤ intMax) : toInt32 n = n := by
  rw [intMax] at h
  rw [toInt32, Int.bmod_eq_of_le]
  · omega
  · omega

theorem toInt32_le_intMax (n : Int) : toInt32 n ≤ intMax := by
  have hlt : n.bmod (2 ^ 32) < ((2 ^ 32 : Nat) + 1) / 2 := Int.bmod_lt (by decide)
  rw [toInt32, intMax]
  omega

/-- A length that is no `int` is lost by a multiple of `2 ^ 32`. -/
theorem toInt32_le_sub {n : Nat} (h : intMax < n) : toInt32 n ≤ n - 2 ^ 32 := by
  rw [intMax] at h
  rw [toInt32]
  have hlt : (n : Int).bmod (2 ^ 32) < ((2 ^ 32 : Nat) + 1) / 2 := Int.bmod_lt (by decide)
  obtain ⟨k, hk⟩ : ((2 ^ 32 : Nat) : Int) ∣ (n : Int) - (n : Int).bmod (2 ^ 32) :=
    Int.dvd_self_sub_bmod
  omega

theorem bind_eq_ok {α β : Type} {x : Except Fault α} {f : α → Except Fault β} {b : β} :
    (x >>= f) = .ok b ↔ ∃ a, x = .ok a ∧ f a = .ok b := by
  cases x with
  | ok a => exact ⟨fun h => ⟨a, rfl, h⟩, fun ⟨a', ha, h⟩ => Except.ok.inj ha ▸ h⟩
  | error e => exact ⟨nofun, fun ⟨a, ha, _⟩ => nomatch ha⟩

theorem Buffer.put_of_lt {buffer : Buffer} {text : Bytes} (h : text.length < buffer.size) :
    buffer.put text = .ok text := if_pos h

theorem Buffer.put_of_not_lt {buffer : Buffer} {text : Bytes} (h : ¬ text.length < buffer.size) :
    buffer.put text = .error (.overflow buffer) := if_neg h

theorem Buffer.put_eq_ok {buffer : Buffer} {text copied : Bytes} :
    buffer.put text = .ok copied ↔ text.length < buffer.size ∧ text = copied := by
  rw [put]
  split
  · rename_i h
    exact ⟨fun heq => ⟨h, Except.ok.inj heq⟩, fun heq => congrArg Except.ok heq.2⟩
  · rename_i h
    exact ⟨nofun, fun heq => absurd heq.1 h⟩

theorem flatten_freads (content : Bytes) : (Opened.ofFile content).freads.flatten = content := by
  refine Blocks.flatten_blocks_of_le ?_
  have hpos : 0 < blockSize := by decide
  have hdiv := Nat.lt_mul_div_succ content.length hpos
  omega

end Np20
end NetLab
