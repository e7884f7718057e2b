import Mathlib.Data.List.Perm.Subperm
import NetLab.Library.ByteStream

/-!
# The file transfer of the sharing program

The SEND branch writes a four-byte length and then the file in blocks, and never
looks at what `send` returns.  The child process reads the length with a single
`recv` and collects the rest in a loop.
-/

namespace NetLab
namespace Sharing

open ByteStream

/-- `sizeof(file_buffer)` on both sides. -/
def fileBufferSize : Nat := 4096

/-- The loop of the sender, from call `i` of `send` on. -/
def sendBlocks (accepts : Nat → Nat) (i : Nat) (rest : Bytes) : Bytes :=
  if rest = [] then []
  else
    let fileBuffer := rest.take fileBufferSize
    fileBuffer.take (part (accepts i) fileBuffer.length) ++
      sendBlocks accepts (i + 1) (rest.drop fileBufferSize)
termination_by rest.length
decreasing_by
  have := List.length_pos_iff.mpr ‹_›
  rw [List.length_drop, fileBufferSize]
  omega

/-- What the sender puts into the stream, and the count it prints.  `accepts`
says how much each call of `send` accepts. -/
def sendFile (accepts : Nat → Nat) (file : Bytes) : Bytes × UInt32 :=
  let fileSize := UInt32.ofNat file.length
  let networkSize := toBytes 4 fileSize.toNat
  (networkSize.take (part (accepts 0) networkSize.length) ++ sendBlocks accepts 1 file, fileSize)

/-- The loop of the receiver, from call `i` of `recv` on: the file and the count
of received bytes. -/
def recvBlocks (cuts : Nat → Nat) (fileSize : UInt32) (i : Nat) (received : UInt32)
    (file stream : Bytes) : Bytes × UInt32 :=
  if received < fileSize then
    let r := recv (cuts i) (min fileBufferSize (fileSize - received).toNat) stream
    if r.1 = [] then (file, received)
    else recvBlocks cuts fileSize (i + 1) (received + UInt32.ofNat r.1.length) (file ++ r.1) r.2
  else (file, received)
termination_by stream.length
decreasing_by
  have hpos : 0 < r.1.length := List.length_pos_iff.mpr ‹_›
  have hlen : r.1.length + r.2.length = stream.length := length_recv_add _ _ _
  change r.2.length < stream.length
  omega

/-- The child process: `file_size` keeps what it held where the first `recv`
brings fewer than four bytes. -/
def recvFile (cuts : Nat → Nat) (uninit stream : Bytes) : Bytes × UInt32 :=
  let r := recv (cuts 0) 4 stream
  let fileSize := UInt32.ofNat (fromBytes (store r.1 uninit))
  recvBlocks cuts fileSize 1 0 [] r.2

/-- The received file is the one that was sent, and both sides print its
length. -/
structure Faithful (file uninit : Bytes) (accepts cuts : Nat → Nat) : Prop where
  file_eq : (recvFile cuts uninit (sendFile accepts file).1).1 = file
  sent : (sendFile accepts file).2.toNat = file.length
  received : (recvFile cuts uninit (sendFile accepts file).1).2.toNat = file.length

/-! ## The two loops -/

/-- The length of block `j` of a file of length `n`. -/
def blockLength (n j : Nat) : Nat := min fileBufferSize (n - fileBufferSize * j)

/-- From call `i` on, each `send` accepts the whole block it is given. -/
def WholeBlocks (accepts : Nat → Nat) (i n : Nat) : Prop :=
  ∀ j, part (accepts (i + j)) (blockLength n j) = blockLength n j

theorem wholeBlocks_succ (accepts : Nat → Nat) (i n : Nat) :
    WholeBlocks accepts i n ↔
      part (accepts i) (min fileBufferSize n) = min fileBufferSize n ∧
        WholeBlocks accepts (i + 1) (n - fileBufferSize) := by
  have hzero : blockLength n 0 = min fileBufferSize n := rfl
  have hsucc : ∀ j, blockLength n (j + 1) = blockLength (n - fileBufferSize) j := by
    intro j
    rw [blockLength, blockLength, Nat.mul_succ, Nat.add_comm, Nat.sub_sub]
  constructor
  · intro h
    refine ⟨hzero ▸ h 0, fun j => ?_⟩
    rw [← hsucc, Nat.add_right_comm]
    exact h (j + 1)
  · rintro ⟨h₀, h⟩ j
    cases j with
    | zero => exact h₀
    | succ j =>
      have := h j
      rwa [← hsucc, Nat.add_right_comm] at this

/-- Nothing is added to the file, and nothing is missing only when every call
accepts its whole block. -/
theorem length_sendBlocks (accepts : Nat → Nat) (i : Nat) (rest : Bytes) :
    (sendBlocks accepts i rest).length ≤ rest.length ∧
      ((sendBlocks accepts i rest).length = rest.length ↔ WholeBlocks accepts i rest.length) := by
  fun_induction sendBlocks accepts i rest with
  | case1 i =>
    refine ⟨Nat.le_refl _, iff_of_true rfl fun j => ?_⟩
    show part _ (min fileBufferSize (0 - fileBufferSize * j)) = _
    rw [Nat.zero_sub, Nat.min_zero, part_zero]
    simp [blockLength]
  | case2 i rest hne fileBuffer ih =>
    obtain ⟨hle, hiff⟩ := ih
    have hbuf : fileBuffer.length = min fileBufferSize rest.length := List.length_take
    have hpart := part_le (accepts i) fileBuffer.length
    have hlen : (fileBuffer.take (part (accepts i) fileBuffer.length)).length =
        part (accepts i) fileBuffer.length := by
      rw [List.length_take]
      omega
    rw [List.length_drop] at hle hiff
    rw [List.length_append, hlen, wholeBlocks_succ, ← hiff, ← hbuf]
    constructor
    · omega
    · omega

theorem sendBlocks_eq {accepts : Nat → Nat} {i : Nat} {rest : Bytes}
    (h : WholeBlocks accepts i rest.length) : sendBlocks accepts i rest = rest := by
  fun_induction sendBlocks accepts i rest with
  | case1 i => rfl
  | case2 i rest hne fileBuffer ih =>
    obtain ⟨hfirst, hrest⟩ := (wholeBlocks_succ accepts i rest.length).mp h
    have hbuf : fileBuffer.length = min fileBufferSize rest.length := List.length_take
    rw [ih (by rwa [List.length_drop]), hbuf, hfirst, ← hbuf, List.take_length]
    exact List.take_append_drop _ _

/-- However the stream is cut, the loop collects the announced number of bytes,
or all there are. -/
theorem recvBlocks_eq (cuts : Nat → Nat) (fileSize : UInt32) (i : Nat) (received : UInt32)
    (file stream : Bytes) (hle : received ≤ fileSize) :
    let m := min (fileSize.toNat - received.toNat) stream.length
    (recvBlocks cuts fileSize i received file stream).1 = file ++ stream.take m ∧
      (recvBlocks cuts fileSize i received file stream).2.toNat = received.toNat + m := by
  fun_induction recvBlocks cuts fileSize i received file stream with
  | case1 i received file stream hlt r hnil =>
    -- Nothing came although something was wanted: the stream has ended.
    have hlt' : received.toNat < fileSize.toNat := UInt32.lt_iff_toNat_lt.mp hlt
    have hsub : (fileSize - received).toNat = fileSize.toNat - received.toNat :=
      UInt32.toNat_sub_of_le _ _ hle
    have hempty : r.1.length = 0 := List.length_eq_zero_iff.mpr hnil
    rw [length_recv, hsub] at hempty
    have hstream : stream.length = 0 := by
      by_contra hne
      have hb : fileBufferSize = 4096 := rfl
      exact absurd hempty (Nat.ne_of_gt (part_pos (by omega)))
    rw [hstream, Nat.min_zero]
    exact ⟨(List.append_nil file).symm, rfl⟩
  | case2 i received file stream hlt r hne ih =>
    have hlt' : received.toNat < fileSize.toNat := UInt32.lt_iff_toNat_lt.mp hlt
    have hsub : (fileSize - received).toNat = fileSize.toNat - received.toNat :=
      UInt32.toNat_sub_of_le _ _ hle
    have hlen : r.1.length = part (cuts i) (min (min fileBufferSize (fileSize - received).toNat)
      stream.length) := length_recv _ _ _
    have hpart := part_le (cuts i) (min (min fileBufferSize (fileSize - received).toNat)
      stream.length)
    have hadd := length_recv_add (cuts i) (min fileBufferSize (fileSize - received).toNat) stream
    have hfs := fileSize.toNat_lt
    have hnum : (received + UInt32.ofNat r.1.length).toNat = received.toNat + r.1.length := by
      rw [UInt32.toNat_add, UInt32.toNat_ofNat']
      omega
    obtain ⟨hfile, hcount⟩ := ih (UInt32.le_iff_toNat_le.mpr (by omega))
    have hr₂ : r.2 = stream.drop r.1.length := by
      rw [hlen]
      rfl
    have hr₁ : r.1 = stream.take r.1.length := by
      rw [hlen]
      rfl
    have hm : min (fileSize.toNat - received.toNat) stream.length =
        r.1.length + min (fileSize.toNat - (received.toNat + r.1.length)) r.2.length := by
      change r.1.length + r.2.length = stream.length at hadd
      omega
    refine ⟨?_, by rw [hcount, hnum, hm, Nat.add_assoc]⟩
    rw [hfile, hnum, hm, List.take_add, ← hr₁, ← hr₂, List.append_assoc]
  | case3 i received file stream hge =>
    have hge' : fileSize.toNat ≤ received.toNat := UInt32.le_iff_toNat_le.mp (UInt32.not_lt.mp hge)
    rw [Nat.sub_eq_zero_of_le hge', Nat.zero_min]
    exact ⟨(List.append_nil file).symm, rfl⟩

/-! ## The header -/

/-- How many bytes of the header the first `send` accepts. -/
def headerSent (accepts : Nat → Nat) : Nat := part (accepts 0) 4

/-- How many bytes the first `recv` returns when `n` bytes follow the header. -/
def headerRead (accepts cuts : Nat → Nat) (n : Nat) : Nat :=
  part (cuts 0) (min 4 (headerSent accepts + n))

/-- The value of `file_size` after the first `recv` returned `header`. -/
def announced (header uninit : Bytes) : Nat := fromBytes (store header uninit)

theorem headerSent_bounds (accepts : Nat → Nat) :
    0 < headerSent accepts ∧ headerSent accepts ≤ 4 :=
  ⟨part_pos (by decide), part_le _ _⟩

/-- The received file is as much of the rest of the stream as was announced. -/
theorem recvFile_eq (cuts : Nat → Nat) {uninit : Bytes} (huninit : uninit.length = 4)
    (stream : Bytes) :
    let r := part (cuts 0) (min 4 stream.length)
    let m := min (announced (stream.take r) uninit) (stream.length - r)
    (recvFile cuts uninit stream).1 = (stream.drop r).take m ∧
      (recvFile cuts uninit stream).2.toNat = m := by
  intro r m
  have hr : r ≤ min 4 stream.length := part_le _ _
  have hstore : (store (stream.take r) uninit).length = 4 := by
    rw [store, List.length_append, List.length_drop, List.length_take, huninit]
    omega
  have hlt : announced (stream.take r) uninit < 2 ^ 32 := by
    have := fromBytes_lt (store (stream.take r) uninit)
    rw [hstore] at this
    exact this
  have hsize : (UInt32.ofNat (announced (stream.take r) uninit)).toNat =
      announced (stream.take r) uninit := by
    rw [UInt32.toNat_ofNat', Nat.mod_eq_of_lt hlt]
  obtain ⟨hfile, hcount⟩ := recvBlocks_eq cuts
    (UInt32.ofNat (announced (stream.take r) uninit)) 1 0 [] (stream.drop r)
    (UInt32.le_iff_toNat_le.mpr (Nat.zero_le _))
  rw [hsize, List.length_drop] at hfile hcount
  exact ⟨hfile, hcount.trans (Nat.zero_add m)⟩

/-- A header that is cut short leaves its low bytes to chance. -/
theorem announced_take (n : Nat) {k : Nat} (hk : k ≤ 4) {uninit : Bytes}
    (huninit : uninit.length = 4) :
    announced ((toBytes 4 n).take k) uninit =
      n / 256 ^ (4 - k) % 256 ^ k * 256 ^ (4 - k) + fromBytes (uninit.drop k) := by
  have hlen : ((toBytes 4 n).take k).length = k := by
    rw [List.length_take, length_toBytes]
    omega
  rw [announced, store, fromBytes_append, fromBytes_take_toBytes hk, hlen, List.length_drop,
    huninit]

/-- What the receiver makes of a file whose length fits the header. -/
theorem recvFile_sendFile (accepts cuts : Nat → Nat) (file uninit : Bytes)
    (hlt : file.length < 2 ^ 32) (huninit : uninit.length = 4) :
    let a := headerSent accepts
    let body := sendBlocks accepts 1 file
    let r := headerRead accepts cuts body.length
    let stream := (toBytes 4 file.length).take a ++ body
    let m := min (announced (stream.take r) uninit) (a + body.length - r)
    (recvFile cuts uninit (sendFile accepts file).1).1 = (stream.drop r).take m ∧
      (recvFile cuts uninit (sendFile accepts file).1).2.toNat = m := by
  intro a body r stream m
  have ha : a ≤ 4 := (headerSent_bounds accepts).2
  have hsize : (UInt32.ofNat file.length).toNat = file.length := by
    rw [UInt32.toNat_ofNat', Nat.mod_eq_of_lt hlt]
  have hstream : (sendFile accepts file).1 = stream := by
    simp only [sendFile, hsize, length_toBytes]
    rfl
  have hlen : stream.length = a + body.length := by
    rw [List.length_append, List.length_take, length_toBytes]
    omega
  have hrecv := recvFile_eq cuts huninit stream
  rw [hlen] at hrecv
  rw [hstream]
  exact hrecv

/-! ## Fidelity -/

theorem exists_not_mem_header (header : Bytes) (h : header.length = 4) :
    ∃ c : UInt8, c ∉ header := by
  by_contra hall
  push Not at hall
  have hsub : [0, 1, 2, 3, 4] ⊆ header := fun c _ => hall c
  have hnodup : ([0, 1, 2, 3, 4] : Bytes).Nodup := by decide
  have hle := (List.subperm_of_subset hnodup hsub).length_le
  rw [h] at hle
  exact absurd hle (by decide)

theorem dvd_of_le_div_mul {n d : Nat} (h : n ≤ n / d * d) : d ∣ n :=
  ⟨n / d, by rw [Nat.mul_comm]; exact Nat.le_antisymm h (Nat.div_mul_le_self n d)⟩

/-- The high bytes of a header that fits. -/
theorem div_mod_header {n k : Nat} (hk : k ≤ 4) (hn : n < 2 ^ 32) :
    n / 256 ^ (4 - k) % 256 ^ k = n / 256 ^ (4 - k) := by
  apply Nat.mod_eq_of_lt
  rw [Nat.div_lt_iff_lt_mul (Nat.pow_pos (by decide)), ← Nat.pow_add, Nat.add_sub_cancel' hk]
  exact hn

/-- The transfer is faithful when nothing is cut in the wrong place. -/
theorem faithful_of_whole {accepts cuts : Nat → Nat} {file uninit : Bytes}
    (hlt : file.length < 2 ^ 32) (hwhole : WholeBlocks accepts 1 file.length)
    (hread : headerRead accepts cuts file.length = headerSent accepts)
    (hdvd : 256 ^ (4 - headerSent accepts) ∣ file.length) (huninit : uninit.length = 4) :
    Faithful file uninit accepts cuts := by
  have ha : headerSent accepts ≤ 4 := (headerSent_bounds accepts).2
  have hheader : ((toBytes 4 file.length).take (headerSent accepts)).length =
      headerSent accepts := by
    rw [List.length_take, length_toBytes]
    omega
  obtain ⟨hfile, hcount⟩ := recvFile_sendFile accepts cuts file uninit hlt huninit
  rw [sendBlocks_eq hwhole, hread] at hfile hcount
  rw [List.take_left' hheader] at hfile hcount
  rw [List.drop_left' hheader] at hfile
  have hsize := announced_take file.length ha huninit
  rw [div_mod_header ha hlt, Nat.div_mul_cancel hdvd] at hsize
  have hm : min (announced ((toBytes 4 file.length).take (headerSent accepts)) uninit)
      (headerSent accepts + file.length - headerSent accepts) = file.length := by
    omega
  rw [hm] at hfile hcount
  refine { file_eq := ?_, sent := ?_, received := hcount }
  · rw [hfile, List.take_length]
  · show (UInt32.ofNat file.length).toNat = file.length
    rw [UInt32.toNat_ofNat', Nat.mod_eq_of_lt hlt]

/-- A faithful transfer has a length that fits the header. -/
theorem Faithful.length_lt {accepts cuts : Nat → Nat} {file uninit : Bytes}
    (h : Faithful file uninit accepts cuts) : file.length < 2 ^ 32 := by
  have hsent := h.sent
  change (UInt32.ofNat file.length).toNat = file.length at hsent
  rw [← hsent]
  exact UInt32.toNat_lt _

/-- A size field of which the first `recv` brings less than four bytes may come
out positive. -/
theorem announced_pos {header : Bytes} (h : header.length < 4) :
    0 < announced header [1, 1, 1, 1] := by
  rw [announced, store, fromBytes_append]
  refine Nat.add_pos_right _ ?_
  generalize header.length = k at h
  have hk : k = 0 ∨ k = 1 ∨ k = 2 ∨ k = 3 := by omega
  rcases hk with rfl | rfl | rfl | rfl <;> decide

/-- A file that shares no byte with its header shows that the first `recv` takes
the header and nothing else. -/
theorem headerRead_eq_of_faithful {accepts cuts : Nat → Nat} {n : Nat} {c : UInt8}
    (hc : c ∉ toBytes 4 n)
    (h : ∀ uninit, uninit.length = 4 → Faithful (List.replicate n c) uninit accepts cuts) :
    WholeBlocks accepts 1 n ∧ headerRead accepts cuts n = headerSent accepts := by
  have hlt : n < 2 ^ 32 := by
    have := (h [0, 0, 0, 0] rfl).length_lt
    rwa [List.length_replicate] at this
  have ha : headerSent accepts ≤ 4 := (headerSent_bounds accepts).2
  have hheader : ((toBytes 4 n).take (headerSent accepts)).length = headerSent accepts := by
    rw [List.length_take, length_toBytes]
    omega
  have hrecv := fun uninit (hu : uninit.length = 4) =>
    recvFile_sendFile accepts cuts (List.replicate n c) uninit
      (by rwa [List.length_replicate]) hu
  obtain ⟨hbody, hwhole⟩ := length_sendBlocks accepts 1 (List.replicate n c)
  simp only [List.length_replicate] at hrecv hbody hwhole
  generalize sendBlocks accepts 1 (List.replicate n c) = body at hrecv hbody hwhole
  generalize hr : headerRead accepts cuts body.length = r at hrecv
  have hrle : r ≤ min 4 (headerSent accepts + body.length) := hr ▸ part_le _ _
  -- Whatever memory held before, the whole file is collected.
  have hcollected : ∀ uninit, uninit.length = 4 →
      min (announced (((toBytes 4 n).take (headerSent accepts) ++ body).take r) uninit)
        (headerSent accepts + body.length - r) = n ∧
      (((toBytes 4 n).take (headerSent accepts) ++ body).drop r).take n = List.replicate n c := by
    intro uninit huninit
    obtain ⟨hfile, hcount⟩ := hrecv uninit huninit
    have hf := h uninit huninit
    rw [hf.received, List.length_replicate] at hcount
    rw [hf.file_eq, ← hcount] at hfile
    exact ⟨hcount.symm, hfile.symm⟩
  have hra : r = headerSent accepts := by
    obtain ⟨hlen, hfile⟩ := hcollected [1, 1, 1, 1] rfl
    by_contra hne
    have hless : r < headerSent accepts := by omega
    rcases Nat.eq_zero_or_pos n with hzero | hpos
    · -- Nothing should come, but chance announces what is left of the header.
      have hann : 0 < announced
          (((toBytes 4 n).take (headerSent accepts) ++ body).take r) [1, 1, 1, 1] :=
        announced_pos (by rw [List.length_take]; omega)
      omega
    · -- The file would start with a byte of the header.
      have hfirst := congrArg (fun l : Bytes => l[0]?) hfile
      simp only [List.getElem?_take_of_lt hpos, List.getElem?_drop, Nat.add_zero] at hfirst
      rw [List.getElem?_append_left (by omega), List.getElem?_take_of_lt hless,
        List.getElem?_replicate_of_lt hpos] at hfirst
      exact hc (List.mem_of_getElem? hfirst)
  obtain ⟨hlen, -⟩ := hcollected [0, 0, 0, 0] rfl
  have heq : body.length = n := by omega
  exact ⟨hwhole.mp heq, by rw [← heq, hr, hra]⟩

/-- For a given length and a given way to cut the stream, every file of that
length arrives whatever memory held, exactly when the length fits the header,
each `send` of a block accepts the whole block, the first `recv` returns exactly
the header bytes that were accepted, and the missing ones are zero. -/
theorem transfer_faithful_iff (n : Nat) (accepts cuts : Nat → Nat) :
    (∀ file uninit : Bytes, file.length = n → uninit.length = 4 →
      Faithful file uninit accepts cuts) ↔
    n < 2 ^ 32 ∧ WholeBlocks accepts 1 n ∧
      headerRead accepts cuts n = headerSent accepts ∧ 256 ^ (4 - headerSent accepts) ∣ n := by
  constructor
  · intro h
    obtain ⟨c, hc⟩ := exists_not_mem_header (toBytes 4 n) (length_toBytes 4 n)
    have hrep : ∀ uninit, uninit.length = 4 →
        Faithful (List.replicate n c) uninit accepts cuts :=
      fun uninit => h _ uninit List.length_replicate
    have hlt : n < 2 ^ 32 := by
      have := (hrep [0, 0, 0, 0] rfl).length_lt
      rwa [List.length_replicate] at this
    obtain ⟨hwhole, hread⟩ := headerRead_eq_of_faithful hc hrep
    refine ⟨hlt, hwhole, hread, ?_⟩
    have ha : headerSent accepts ≤ 4 := (headerSent_bounds accepts).2
    have hheader : ((toBytes 4 n).take (headerSent accepts)).length = headerSent accepts := by
      rw [List.length_take, length_toBytes]
      omega
    obtain ⟨-, hcount⟩ := recvFile_sendFile accepts cuts (List.replicate n c) [0, 0, 0, 0]
      (by rwa [List.length_replicate]) rfl
    rw [(hrep [0, 0, 0, 0] rfl).received] at hcount
    have hbody : sendBlocks accepts 1 (List.replicate n c) = List.replicate n c :=
      sendBlocks_eq (by rwa [List.length_replicate])
    simp only [List.length_replicate, hbody, hread, List.take_left' hheader] at hcount
    rw [announced_take n ha rfl, div_mod_header ha hlt] at hcount
    have hzero : fromBytes (([0, 0, 0, 0] : Bytes).drop (headerSent accepts)) = 0 := by
      generalize headerSent accepts = a at ha
      have hcases : a = 0 ∨ a = 1 ∨ a = 2 ∨ a = 3 ∨ a = 4 := by omega
      rcases hcases with rfl | rfl | rfl | rfl | rfl <;> decide
    rw [hzero] at hcount
    apply dvd_of_le_div_mul
    omega
  · rintro ⟨hlt, hwhole, hread, hdvd⟩ file uninit rfl huninit
    exact faithful_of_whole hlt hwhole hread hdvd huninit

/-- A `send` that accepts one byte of a block of two. -/
theorem transfer_loses_byte :
    ¬ ∀ (file uninit : Bytes) (accepts cuts : Nat → Nat), uninit.length = 4 →
      Faithful file uninit accepts cuts := by
  intro h
  let accepts : Nat → Nat := fun i => if i = 0 then 4 else 1
  have hf := (h [1, 2] [0, 0, 0, 0] accepts (fun _ => 4) rfl).received
  have hlost : ¬ WholeBlocks accepts 1 2 := fun hw => absurd (hw 0) (by decide)
  obtain ⟨hle, hiff⟩ := length_sendBlocks accepts 1 [1, 2]
  have hlt : (sendBlocks accepts 1 [1, 2]).length < 2 :=
    Nat.lt_of_le_of_ne hle (mt hiff.mp hlost)
  have hread : headerRead accepts (fun _ => 4) (sendBlocks accepts 1 [1, 2]).length = 4 := by
    have hsent : headerSent accepts = 4 := by decide
    rw [headerRead, hsent]
    exact part_self (by decide) (by omega)
  obtain ⟨-, hcount⟩ := recvFile_sendFile accepts (fun _ => 4) [1, 2] [0, 0, 0, 0]
    (by decide) rfl
  rw [hf, hread] at hcount
  have hsent : headerSent accepts = 4 := by decide
  rw [hsent] at hcount
  have htwo : ([1, 2] : Bytes).length = 2 := rfl
  omega

end Sharing
end NetLab
