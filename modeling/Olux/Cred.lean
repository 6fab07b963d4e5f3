import Olux.Basic

namespace Olux

structure Cred where
  uid : UInt32
  euid : UInt32
  suid : UInt32
  gid : UInt32
  egid : UInt32
  sgid : UInt32
  groups : List UInt32

namespace Cred

def capableRoot (c : Cred) : Bool := c.euid = 0

def uidOk (c : Cred) (id : UInt32) : Bool := c.euid = 0 || id = c.uid || id = c.euid || id = c.suid

def keep : UInt32 := 0xFFFFFFFF

def sysSetresuid (r e s : UInt64) (c : Cred) : Int × Cred :=
  let r := r.toUInt32
  let e := e.toUInt32
  let s := s.toUInt32
  if (r ≠ keep && !c.uidOk r) || (e ≠ keep && !c.uidOk e) || (s ≠ keep && !c.uidOk s) then (- EPERM, c)
  else
    (0, { c with
      uid := if r ≠ keep then r else c.uid
      euid := if e ≠ keep then e else c.euid
      suid := if s ≠ keep then s else c.suid })

def sysSetuid (uid : UInt64) (c : Cred) : Int × Cred :=
  if c.euid = 0 then (0, { c with uid := uid.toUInt32, euid := uid.toUInt32, suid := uid.toUInt32 })
  else if uid ≠ c.uid.toUInt64 ∧ uid ≠ c.suid.toUInt64 then (- EPERM, c)
  else (0, { c with euid := uid.toUInt32 })

def sysSetreuid (r e : UInt64) (c : Cred) : Int × Cred := sysSetresuid r e 0xFFFFFFFF c

inductive UidCall where
  | setuid (uid : UInt64)
  | setreuid (r e : UInt64)
  | setresuid (r e s : UInt64)

def UidCall.run : UidCall → Cred → Int × Cred
  | .setuid uid => sysSetuid uid
  | .setreuid r e => sysSetreuid r e
  | .setresuid r e s => sysSetresuid r e s

def after (calls : List UidCall) (c : Cred) : Cred := calls.foldl (fun c k => (k.run c).2) c

end Cred

end Olux
