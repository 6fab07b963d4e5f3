import Mathlib

namespace Olux

def PAGE_SIZE : Nat := 4096
def USER_VA_END : Nat := 2 ^ 39
def MAX_ORDER : Nat := 11
def NAME_MAX : Nat := 255
def DT_DIR : Nat := 4

def S_IFMT : UInt32 := 0o170000
def S_IFLNK : UInt32 := 0o120000
def S_IFREG : UInt32 := 0o100000
def S_IFDIR : UInt32 := 0o040000

def EPERM : Int := 1
def ENOENT : Int := 2
def ESRCH : Int := 3
def EINTR : Int := 4
def EIO : Int := 5
def ENXIO : Int := 6
def ENOEXEC : Int := 8
def EBADF : Int := 9
def ECHILD : Int := 10
def EAGAIN : Int := 11
def ENOMEM : Int := 12
def EACCES : Int := 13
def EFAULT : Int := 14
def EBUSY : Int := 16
def EEXIST : Int := 17
def ENODEV : Int := 19
def ENOTDIR : Int := 20
def EISDIR : Int := 21
def EINVAL : Int := 22
def EMFILE : Int := 24
def ENOTTY : Int := 25
def EFBIG : Int := 27
def ENOSPC : Int := 28
def EROFS : Int := 30
def EPIPE : Int := 32
def ENAMETOOLONG : Int := 36
def ENOTEMPTY : Int := 39
def ELOOP : Int := 40
def ENOTSOCK : Int := 88
def EMSGSIZE : Int := 90
def EPROTOTYPE : Int := 91
def EOPNOTSUPP : Int := 95
def ENOBUFS : Int := 105
def EISCONN : Int := 106
def ENOTCONN : Int := 107
def ETIMEDOUT : Int := 110
def ECONNREFUSED : Int := 111
def ESTALE : Int := 116
def ERESTARTSYS : Int := 512
def ERESTARTNOHAND : Int := 514

def has (flags bit : UInt32) : Bool := flags &&& bit != 0

end Olux
