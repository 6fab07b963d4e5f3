import Olux.Vm.Vma

namespace Olux.Vm

open Olux.Lib

variable (s : Space)

variable (v : Vma)

def fillPage (va p : Nat) : Int × Space :=
  let delta := sub64 va v.start
  if v.file = none ∨ v.fileBytes ≤ delta then (0, s)
  else
    let n := min PAGE_SIZE (v.fileBytes - delta)
    match s.supply.reads with
    | [] => (- EIO, s)
    | answer :: rest =>
      let s := { s with supply := { s.supply with reads := rest } }
      match answer with
      | .error e => (Int.negSucc e, s)
      | .ok bytes =>
        let data := fun i => if i < n then bytes.getD i ((s.frame p).data i) else (s.frame p).data i
        (0, s.setFrame p { s.frame p with data := data })

def faultNew (va : Nat) : Int × Space :=
  if v.flags.io then
    let frame := add64 v.ioBase (sub64 va v.start) / PAGE_SIZE % 2 ^ 36
    (0, s.setPte va { pteProt v.flags frame with swShared := true })
  else
    match allocPage s true with
    | (none, s) => (-ENOMEM, s)
    | (some p, s) =>
      match fillPage s v va p with
      | (r, s) => if r ≠ 0 then (r, freePage s p) else (0, (s.setPte va (pteProt v.flags p)).addRss)

def faultWrite (va : Nat) (old : Pte) : Int × Space :=
  if v.flags.write = false then (-EACCES, s)
  else if old.swShared = false ∧ (s.frame old.frame).refcount = 1 then
    (0, s.setPte va { old with rdonly := false, swCow := false, swWrite := true })
  else
    match allocPage s false with
    | (none, s) => (-ENOMEM, s)
    | (some np, s) =>
      let s := s.setFrame np { s.frame np with data := (s.frame old.frame).data }
      let s := s.setPte va (pteProt v.flags np)
      (0, if old.swShared then s.addRss else pagePut s old.frame)

def faultIn (va : Nat) (write : Bool) : Int × Space :=
  match userPte s va with
  | (false, s) => (-ENOMEM, s)
  | (true, s) =>
    let old := s.mm.pte va
    if old.valid = false then faultNew s v va
    else if write ∧ old.rdonly then faultWrite s v va old
    else (0, s)

def faultAllowed (va : Nat) (write exec : Bool) : Int × Space :=
  if write ∧ v.flags.write = false then (-EACCES, s)
  else if exec ∧ v.flags.exec = false then (-EACCES, s)
  else if write = false ∧ exec = false ∧ v.flags.read = false ∧ v.flags.exec = false ∧ v.flags.write = false then
    (-EACCES, s)
  else faultIn s v va write

def handleMmFault (addr : Nat) (write exec : Bool) : Int × Space :=
  if USER_VA_END ≤ addr then (-EFAULT, s)
  else
    let va := alignDown addr PAGE_SIZE
    match vmaFind va s.mm.vmas with
    | some v => faultAllowed s v va write exec
    | none =>
      -- the stack grows downwards
      match vmaFindIntersect va USER_VA_END s.mm.vmas with
      | none => (-EFAULT, s)
      | some g =>
        if g.flags.growsdown = false ∨ USER_STACK_MAX < sub64 g.start va ∨
            USER_STACK_MAX < sub64 s.mm.stackTop va then (-EFAULT, s)
        else
          let grow := fun w : Vma => { w with start := va }
          faultAllowed (s.setVmas (vmaModifyIntersect va USER_VA_END grow s.mm.vmas)) (grow g) va write exec

def pagesFrom (start stop : Nat) : List Nat :=
  (List.range ((stop - start + (PAGE_SIZE - 1)) / PAGE_SIZE)).map fun i => start + i * PAGE_SIZE

def populatePages (write : Bool) : List Nat → Space → Int × Space
  | [], s => (0, s)
  | va :: rest, s =>
    match handleMmFault s va write false with
    | (r, s) => if r ≠ 0 then (r, s) else populatePages write rest s

def mmPopulate (addr len : Nat) (write : Bool) : Int × Space :=
  populatePages write (pagesFrom (alignDown addr PAGE_SIZE) (add64 addr len)) s

def mmCreate (u : Supply) : Option Mm × Supply :=
  match u.object with
  | (false, u) => (none, u)
  | (true, u) =>
    match u.table with
    | (false, u) => (none, u)
    | (true, u) =>
      if u.asid = false then (none, u)
      else
        let stackTop := USER_STACK_TOP_BASE - u.random % 2 ^ 16 * PAGE_SIZE
        let mmapBase := stackTop - USER_STACK_MAX - USER_MMAP_GAP - u.random / 2 ^ 16 % 2 ^ 16 * PAGE_SIZE
        (some
          { refcount := 1, pgd := fun _ => none, vmas := [], brkStart := 0, brk := 0, mmapBase := mmapBase,
            stackTop := stackTop, rssPages := 0 }, u)

def mmPut : Option Mm × Space :=
  if 1 < s.mm.refcount then (some { s.mm with refcount := s.mm.refcount - 1 }, s)
  else (none, freeTables s)

def dupPte (va : Nat) (parent : Mm) (s : Space) : Bool × Mm × Space :=
  let pv := parent.pte va
  if pv.valid = false then (true, parent, s)
  else
    match userPte s va with
    | (false, s) => (false, parent, s)
    | (true, s) =>
      if pv.swShared then (true, parent, s.setPte va pv)
      else
        let s := (pageGet s pv.frame).addRss
        if v.flags.shared then (true, parent, s.setPte va pv)
        else
          let pv := { pv with rdonly := true, swCow := true }
          (true, parent.setPte va pv, s.setPte va pv)

def dupPages (v : Vma) : List Nat → Mm → Space → Bool × Mm × Space
  | [], parent, s => (true, parent, s)
  | va :: rest, parent, s =>
    match dupPte v va parent s with
    | (false, parent, s) => (false, parent, s)
    | (true, parent, s) => dupPages v rest parent s

def dupVmas : List Vma → Mm → Space → Bool × Mm × Space
  | [], parent, s => (true, parent, s)
  | v :: rest, parent, s =>
    match kmalloc s with
    | (false, s) => (false, parent, s)
    | (true, s) =>
      match dupPages v (pagesFrom v.start v.stop) parent (s.setVmas (s.mm.vmas ++ [v])) with
      | (false, parent, s) => (false, parent, s)
      | (true, parent, s) => dupVmas rest parent s

def mmDup : Option Mm × Space :=
  match mmCreate s.supply with
  | (none, u) => (none, { s with supply := u })
  | (some mm, u) =>
    let child := { mm with
      brkStart := s.mm.brkStart, brk := s.mm.brk, mmapBase := s.mm.mmapBase, stackTop := s.mm.stackTop }
    match dupVmas s.mm.vmas s.mm { s with mm := child, supply := u } with
    | (true, parent, t) => (some t.mm, { t with mm := parent })
    | (false, parent, t) => (none, { (mmPut t).2 with mm := parent })

end Olux.Vm
