import Carbond.Cache.Database

/-! The TCP receiver: it accepts a connection, receives from it once, and takes what it got for
whole lines. -/
namespace Carbond.Receiver
open Text Posix Cache
variable [Platform]

def maxTcpRead : Nat := 65535

/-- The successive results of `recvfrom` on a connection, up to the end of its stream. -/
abbrev Connection := List CString

/-- What is received next, and what is left. At the end of the stream nothing is received. -/
def recvfrom : Connection → CString × Connection
  | [] => ([], [])
  | mesg :: rest => (mesg, rest)

/-- A turn of the loop of `receiver_tcp_worker`. Without a connection `accept` was interrupted or
timed out. The rest of a connection is never asked for: no later turn has its descriptor. -/
def receiverTcpTurn : Option Connection → Step Unit
  | none => return ()
  | some conn => do
    let (mesg, _) := recvfrom conn
    -- `mesg[n] = '\0'` in a buffer of `MAX_TCP_READ` bytes
    if maxTcpRead ≤ mesg.length then throw .bufferOverrun
    else protocolProcessMetricsMultiline (toNul mesg)

/-- The turns of the loop, by what `accept` returns. -/
def receiverTcpWorker : List (Option Connection) → Step Unit
  | [] => return ()
  | accepted :: rest => do
    receiverTcpTurn accepted
    receiverTcpWorker rest

end Carbond.Receiver
