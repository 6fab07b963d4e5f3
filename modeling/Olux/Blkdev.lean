import Olux.Basic

namespace Olux.Blkdev

open Function List Option

def MKDEV (ma mi : Nat) : Nat := ma <<< 8 ||| mi % 2 ^ 8 ||| (mi / 2 ^ 8) <<< 20

structure MbrEntry where
  type : UInt8
  start : UInt32
  len : UInt32

structure GptEntry where
  used : Bool
  first : UInt64
  last : UInt64

-- What `scan_partitions` finds. A GPT has the entries up to the first that cannot be read.
inductive Table where
  | none
  | mbr (entries : List MbrEntry) (four : entries.length = 4)
  | gpt (entries : List GptEntry) (accepted : entries.length ≤ 256)

-- A disk that a driver registers; `alloc` is whether kzalloc gives the memory for a partition.
structure Disk where
  major : Nat
  nrSectors : Nat
  table : Table
  alloc : Nat → Bool

variable (d : Disk)

structure Part where
  number : Nat
  start : Nat
  nrSectors : Nat
deriving DecidableEq

def Disk.addPartition (n : Nat) (start len : UInt64) : Option Part :=
  if start.toNat < d.nrSectors && len.toNat != 0 && d.alloc n then
    some ⟨n, start.toNat, if d.nrSectors < (start + len).toNat then d.nrSectors - start.toNat else len.toNat⟩
  else none

def Disk.addMbr (n : Nat) (e : MbrEntry) : Option Part :=
  if e.type != 0 && e.type != 0x05 && e.type != 0x0f && e.len != 0 then
    d.addPartition n e.start.toUInt64 e.len.toUInt64
  else none

def Disk.addGpt (n : Nat) (e : GptEntry) : Option Part :=
  if e.first ≤ e.last then d.addPartition n e.first (e.last - e.first + 1) else none

def numbered {α : Type} (add : Nat → α → Option Part) : List α → Nat → List Part
  | [], _ => []
  | e :: es, n => (add n e).toList ++ numbered add es (n + 1)

def Disk.partitions : List Part :=
  match d.table with
  | .none => []
  | .mbr es _ => numbered d.addMbr es 1
  | .gpt es _ => numbered d.addGpt (es.filter GptEntry.used) 1

def Disk.parts : List Nat := d.partitions.map Part.number

structure Dev where
  dev : Nat
  disk : Nat
  part : Nat
deriving DecidableEq

structure Registry where
  minorBase : Nat → Nat
  disks : List Dev
  count : Nat

def blkdevRegister (r : Registry) (d : Disk) : Registry :=
  let dev := MKDEV d.major (r.minorBase d.major)
  { minorBase := Function.update r.minorBase d.major (r.minorBase d.major + 16)
    disks := r.disks ++ (0 :: d.parts).map fun n => ⟨dev + n, r.count, n⟩
    count := r.count + 1 }

def register (ds : List Disk) : Registry := ds.foldl blkdevRegister ⟨fun _ => 0, [], 0⟩

def blkdevLookup (r : Registry) (dev : Nat) : Option Dev := r.disks.find? fun d => d.dev = dev

theorem MKDEV_eq {ma : Nat} (hma : ma < 2 ^ 8) (mi : Nat) :
    MKDEV ma mi = ma * 2 ^ 8 + mi % 2 ^ 8 + mi / 2 ^ 8 * 2 ^ 20 := by
  have hlow : mi % 2 ^ 8 < 2 ^ 8 := Nat.mod_lt _ (by decide)
  have hsmall : ma * 2 ^ 8 + mi % 2 ^ 8 < 2 ^ 20 := by omega
  rw [MKDEV, ← Nat.shiftLeft_add_eq_or_of_lt hlow, Nat.shiftLeft_eq, Nat.or_comm,
    ← Nat.shiftLeft_add_eq_or_of_lt hsmall, Nat.shiftLeft_eq, Nat.add_comm]

variable {d} in
theorem addPartition_number {n : Nat} {start len : UInt64} {p : Part} (h : d.addPartition n start len = some p) :
    p.number = n := by
  obtain ⟨-, heq⟩ := ite_none_right_eq_some.mp h
  obtain rfl := some.inj heq
  rfl

theorem numbered_sorted {α : Type} {add : Nat → α → Option Part} (hadd : ∀ n e p, add n e = some p → p.number = n)
    (es : List α) (n : Nat) : ((numbered add es n).map Part.number).Pairwise (· < ·) ∧
      ∀ m ∈ (numbered add es n).map Part.number, n ≤ m := by
  induction es generalizing n with
  | nil => exact ⟨.nil, nofun⟩
  | cons e es ih =>
  obtain ⟨hsorted, hle⟩ := ih (n + 1)
  have hle' : ∀ m ∈ (numbered add es (n + 1)).map Part.number, n ≤ m := fun m hm => Nat.le_of_succ_le (hle m hm)
  rw [numbered]
  cases hp : add n e with
  | none => exact ⟨hsorted, hle'⟩
  | some p =>
    rw [toList_some, singleton_append, map_cons, hadd n e p hp]
    exact ⟨.cons hle hsorted, forall_mem_cons.mpr ⟨Nat.le_refl n, hle'⟩⟩

theorem parts_sorted : (0 :: d.parts).Pairwise (· < ·) := by
  have hmbr : ∀ n e p, d.addMbr n e = some p → p.number = n := fun _ _ _ h =>
    addPartition_number (ite_none_right_eq_some.mp h).2
  have hgpt : ∀ n e p, d.addGpt n e = some p → p.number = n := fun _ _ _ h =>
    addPartition_number (ite_none_right_eq_some.mp h).2
  unfold Disk.parts Disk.partitions
  split
  · exact pairwise_singleton _ _
  · exact .cons (numbered_sorted hmbr _ 1).2 (numbered_sorted hmbr _ 1).1
  · exact .cons (numbered_sorted hgpt _ 1).2 (numbered_sorted hgpt _ 1).1

structure Apart (r : Registry) : Prop where
  nodup : (r.disks.map Dev.dev).Nodup
  base : ∀ ma, 16 ∣ r.minorBase ma
  below : ∀ x ∈ r.disks, ∃ ma mi, ma < 2 ^ 8 ∧ mi < r.minorBase ma ∧ x.dev = MKDEV ma mi

theorem Apart.register {r : Registry} (h : Apart r) {d : Disk} (hma : d.major < 2 ^ 8)
    (hparts : ∀ n ∈ d.parts, n < 16) :
    Apart (blkdevRegister r d) := by
  have hbase := h.base d.major
  -- a stride holds the disk and its partitions
  have hdev : ∀ n ∈ 0 :: d.parts, n < 16 ∧
      MKDEV d.major (r.minorBase d.major) + n = MKDEV d.major (r.minorBase d.major + n) := by
    intro n hn
    have hlt : n < 16 := by
      rcases mem_cons.mp hn with rfl | hn
      · decide
      · exact hparts n hn
    rw [MKDEV_eq hma, MKDEV_eq hma]
    omega
  refine ⟨?_, fun ma => ?_, fun x hx => ?_⟩
  · simp only [blkdevRegister, List.map_append, List.map_map]
    refine List.nodup_append.mpr ⟨h.nodup, ?_, fun a ha b hb => ?_⟩
    · exact (parts_sorted d).imp_of_mem (fun _ _ hlt => by dsimp only [Function.comp]; omega) |>.map _
        fun _ _ hab => hab
    obtain ⟨x, hx, rfl⟩ := List.mem_map.mp ha
    obtain ⟨n, hn, rfl⟩ := mem_map.mp hb
    obtain ⟨ma, mi, hma', hlt, heq⟩ := h.below x hx
    obtain ⟨-, hdev⟩ := hdev n hn
    intro hab
    rw [heq] at hab
    replace hab := hab.trans hdev
    rw [MKDEV_eq hma', MKDEV_eq hma] at hab
    obtain rfl : ma = d.major := by omega
    omega
  · by_cases hm : ma = d.major
    · simp only [blkdevRegister, hm, update_self]
      omega
    · simp only [blkdevRegister, update_of_ne hm]
      exact h.base ma
  rcases mem_append.mp hx with hx | hx
  · obtain ⟨ma, mi, hma', hlt, heq⟩ := h.below x hx
    refine ⟨ma, mi, hma', Nat.lt_of_lt_of_le hlt ?_, heq⟩
    by_cases hm : ma = d.major
    · simp only [blkdevRegister, hm, update_self]
      omega
    · simp only [blkdevRegister, update_of_ne hm, Nat.le_refl]
  · obtain ⟨n, hn, rfl⟩ := mem_map.mp hx
    refine ⟨d.major, _, hma, ?_, (hdev n hn).2⟩
    simp only [blkdevRegister, update_self]
    have := (hdev n hn).1
    omega

-- No two devices have one number if no disk has a partition 16, and then a lookup finds the
-- device that has the number.
theorem numbers_unique (ds : List Disk) (hma : ∀ d ∈ ds, d.major < 256) (hparts : ∀ d ∈ ds, ∀ n ∈ d.parts, n < 16) :
    ((register ds).disks.map Dev.dev).Nodup ∧ ∀ x ∈ (register ds).disks, blkdevLookup (register ds) x.dev = some x := by
  have hrun : ∀ r, Apart r → Apart (ds.foldl blkdevRegister r) := by
    induction ds with
    | nil => exact fun r h => h
    | cons d ds ih =>
      rw [forall_mem_cons] at hma hparts
      exact fun r h => ih hma.2 hparts.2 _ (h.register hma.1 hparts.1)
  have hnodup := (hrun ⟨fun _ => 0, [], 0⟩ ⟨nodup_nil, fun _ => Nat.dvd_zero 16, nofun⟩).nodup
  refine ⟨hnodup, fun x hx => ?_⟩
  have hfound : ((register ds).disks.find? fun d => d.dev = x.dev).isSome :=
    find?_isSome.mpr ⟨x, hx, decide_eq_true rfl⟩
  obtain ⟨y, hy⟩ := isSome_iff_exists.mp hfound
  have hdev : y.dev = x.dev := by simpa using find?_some hy
  rw [blkdevLookup, hy, inj_on_of_nodup_map hnodup (mem_of_find?_eq_some hy) hx hdev]

def gptDisk (n : Fin 257) : Disk :=
  ⟨254, 1000, .gpt (List.replicate n ⟨true, 34, 40⟩) (by rw [List.length_replicate]; omega), fun _ => true⟩

theorem numbers_unique_fifteen : ((register [gptDisk 15, gptDisk 0]).disks.map Dev.dev).Nodup :=
  (numbers_unique [gptDisk 15, gptDisk 0] (by decide) (by decide)).1

theorem sixteenth_partition_collides : ⟨MKDEV 254 16, 0, 16⟩ ∈ (register [gptDisk 16, gptDisk 0]).disks ∧
    ⟨MKDEV 254 16, 1, 0⟩ ∈ (register [gptDisk 16, gptDisk 0]).disks ∧
    ¬ ((register [gptDisk 16, gptDisk 0]).disks.map Dev.dev).Nodup := by
  decide

-- `disk_io` for a block of 4096 bytes: the sector and the number of sectors that the driver gets.
def Disk.diskIo (block : Nat) : Option (Nat × Nat) :=
  let sector := block * 8 % 2 ^ 64
  if d.nrSectors ≤ sector then none
  else some (sector, if d.nrSectors < sector + 8 then d.nrSectors - sector else 8)

-- The block that `cached_rw` needs once it has done `done` of `n` bytes at `off`.
def Part.block (p : Part) (n off done : Nat) : Option Nat :=
  let limit := p.nrSectors * 512 % 2 ^ 64
  if limit ≤ off ∨ min n (limit - off) ≤ done then none else some ((p.start * 512 + off + done) % 2 ^ 64 / 4096)

theorem mem_numbered {α : Type} {add : Nat → α → Option Part} {es : List α} {n : Nat} {p : Part} :
    p ∈ numbered add es n ↔ ∃ i e, es[i]? = some e ∧ add (n + i) e = some p := by
  induction es generalizing n with
  | nil => simp [numbered]
  | cons e es ih =>
  rw [numbered, mem_append, mem_toList, ih]
  constructor
  · rintro (h | ⟨i, e', he, hadd⟩)
    · exact ⟨0, e, rfl, h⟩
    · exact ⟨i + 1, e', he, by rwa [← Nat.add_assoc, Nat.add_right_comm]⟩
  rintro ⟨i, e', he, hadd⟩
  cases i with
  | zero =>
    obtain rfl := some.inj he
    exact .inl hadd
  | succ i => exact .inr ⟨i, e', he, by rwa [Nat.add_right_comm, Nat.add_assoc]⟩

theorem addPartition_inside {d : Disk} {n : Nat} {start len : UInt64} {p : Part}
    (h : d.addPartition n start len = some p) (hsum : start.toNat + len.toNat < 2 ^ 64) : p.start + p.nrSectors ≤ d.nrSectors := by
  obtain ⟨hadds, heq⟩ := ite_none_right_eq_some.mp h
  obtain rfl := some.inj heq
  simp only [Bool.and_eq_true, decide_eq_true_eq] at hadds
  rw [UInt64.toNat_add, Nat.mod_eq_of_lt hsum]
  dsimp only
  split <;> omega

-- An entry that ends at the last number of 64 bits and becomes a partition: its `start + len` wraps to 0.
def Disk.Endless (n : Nat) (e : GptEntry) : Prop :=
  e.last.toNat = 2 ^ 64 - 1 ∧ e.first ≠ 0 ∧ e.first.toNat < d.nrSectors ∧ d.alloc n = true

theorem length_eq {e : GptEntry} (h : e.first ≤ e.last) :
    (e.last - e.first + 1).toNat = (e.last.toNat - e.first.toNat + 1) % 2 ^ 64 := by
  rw [UInt64.toNat_add, UInt64.toNat_sub_of_le _ _ h, UInt64.toNat_one]

theorem addGpt_inside {d : Disk} {n : Nat} {e : GptEntry} {p : Part} (hp : d.addGpt n e = some p)
    (h : ¬ d.Endless n e) : p.start + p.nrSectors ≤ d.nrSectors := by
  obtain ⟨hle, hadd⟩ := ite_none_right_eq_some.mp hp
  obtain ⟨hadds, -⟩ := ite_none_right_eq_some.mp hadd
  simp only [Bool.and_eq_true, decide_eq_true_eq, bne_iff_ne, ne_eq, length_eq hle] at hadds
  refine addPartition_inside hadd ?_
  rw [length_eq hle]
  have hlast : e.last.toNat ≠ 2 ^ 64 - 1 := by
    refine fun hlast => h ⟨hlast, ?_, hadds.1.1, hadds.2⟩
    rintro h0
    rw [hlast, h0] at hadds
    exact hadds.1.2 (by decide)
  have hle : e.first.toNat ≤ e.last.toNat := UInt64.le_iff_toNat_le.mp hle
  have h1 := e.last.toNat_lt
  omega

theorem addGpt_endless {d : Disk} {n : Nat} {e : GptEntry} (h : d.Endless n e) :
    d.addGpt n e = some ⟨n, e.first.toNat, 2 ^ 64 - e.first.toNat⟩ := by
  obtain ⟨hlast, hfirst, hlt, halloc⟩ := h
  have h0 : e.first.toNat ≠ 0 := fun h0 => hfirst (UInt64.toNat_inj.mp h0)
  have hmax := e.first.toNat_lt
  have hle : e.first ≤ e.last := UInt64.le_iff_toNat_le.mpr (by omega)
  have hlen : (e.last - e.first + 1).toNat = 2 ^ 64 - e.first.toNat := by
    rw [length_eq hle]
    omega
  have hsum : (e.first + (e.last - e.first + 1)).toNat = 0 := by
    rw [UInt64.toNat_add, hlen]
    omega
  have hadds : (decide (e.first.toNat < d.nrSectors) && (e.last - e.first + 1).toNat != 0 && d.alloc n) = true := by
    simp only [hlt, halloc, hlen, decide_true, Bool.true_and, Bool.and_true, bne_iff_ne, ne_eq]
    omega
  rw [Disk.addGpt, if_pos hle, Disk.addPartition, if_pos hadds, hsum, if_neg (Nat.not_lt_zero _), hlen]

theorem diskIo_inside {block : Nat} {x : Nat × Nat} (h : d.diskIo block = some x) : x.1 + x.2 ≤ d.nrSectors := by
  obtain ⟨hlt, heq⟩ := ite_none_left_eq_some.mp h
  obtain rfl := some.inj heq
  dsimp only
  split <;> omega

-- Each partition lies inside of its disk iff no GPT entry is endless. What the driver gets to read or
-- write through a partition lies on the disk in any case, as `disk_io` has a check of its own.
theorem partition_inside_iff (d : Disk) (hsectors : d.nrSectors < 2 ^ 64) :
    ((∀ p ∈ d.partitions, p.start + p.nrSectors ≤ d.nrSectors) ↔
      ∀ es ha, d.table = .gpt es ha → ∀ i e, (es.filter GptEntry.used)[i]? = some e → ¬ d.Endless (1 + i) e) ∧
    ∀ p ∈ d.partitions, ∀ n off done block x, p.block n off done = some block → d.diskIo block = some x →
      x.1 + x.2 ≤ d.nrSectors := by
  refine ⟨⟨fun h es ha htable i e he hend => ?_, fun h p hp => ?_⟩, fun _ _ _ _ _ _ _ _ => diskIo_inside d⟩
  · have hmem : ⟨1 + i, e.first.toNat, 2 ^ 64 - e.first.toNat⟩ ∈ d.partitions := by
      rw [Disk.partitions, htable]
      exact mem_numbered.mpr ⟨i, e, he, addGpt_endless hend⟩
    have hin := h _ hmem
    have hmax := e.first.toNat_lt
    dsimp only at hin
    omega
  unfold Disk.partitions at hp
  split at hp
  · cases hp
  · obtain ⟨i, e, -, hadd⟩ := mem_numbered.mp hp
    refine addPartition_inside (ite_none_right_eq_some.mp hadd).2 ?_
    have h1 := e.start.toNat_lt
    have h2 := e.len.toNat_lt
    rw [UInt32.toNat_toUInt64, UInt32.toNat_toUInt64]
    omega
  · rename_i es ha htable
    obtain ⟨i, e, he, hadd⟩ := mem_numbered.mp hp
    exact addGpt_inside hadd (h es ha htable i e he)

theorem partition_inside_one : (gptDisk 1).partitions = [⟨1, 34, 7⟩] ∧ (34 : Nat) + 7 ≤ 1000 := by
  refine ⟨by decide, (partition_inside_iff (gptDisk 1) (by decide)).1.mpr (fun es ha heq i e he hend => ?_) ⟨1, 34, 7⟩
    (by decide)⟩
  cases heq
  have hmem := (mem_filter.mp (mem_of_getElem? he)).1
  rw [eq_of_mem_replicate hmem] at hend
  exact absurd hend.1 (by decide)

def endless : Disk := ⟨254, 1000, .gpt [⟨true, 34, 0xFFFFFFFFFFFFFFFF⟩] (by decide), fun _ => true⟩

theorem endless_partition : endless.partitions = [⟨1, 34, 2 ^ 64 - 34⟩] ∧ ¬ (34 + (2 ^ 64 - 34) ≤ endless.nrSectors) ∧
    (⟨1, 34, 2 ^ 64 - 34⟩ : Part).block 512 (1000 * 512) 0 = some 129 ∧ endless.diskIo 129 = none := by
  decide

end Olux.Blkdev
