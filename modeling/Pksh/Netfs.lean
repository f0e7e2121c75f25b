import Pksh.Relay

/-! The requests to the file server on the PS2. Each fills in a struct at the
start of `send_packet`, sends it on `ps2_netfs_fd` and waits for its reply. -/

namespace Pksh

open Wire Traced

def ps2netfsOpenCmd : Word := 0xbeef8011
def ps2netfsOpenRly : Word := 0xbeef8012
def ps2netfsCloseCmd : Word := 0xbeef8021
def ps2netfsCloseRly : Word := 0xbeef8022
def ps2netfsReadCmd : Word := 0xbeef8031
def ps2netfsReadRly : Word := 0xbeef8032
def ps2netfsWriteCmd : Word := 0xbeef8041
def ps2netfsWriteRly : Word := 0xbeef8042
def ps2netfsLseekCmd : Word := 0xbeef8051
def ps2netfsLseekRly : Word := 0xbeef8052
def ps2netfsRemoveCmd : Word := 0xbeef8071
def ps2netfsRemoveRly : Word := 0xbeef8072
def ps2netfsMkdirCmd : Word := 0xbeef8081
def ps2netfsMkdirRly : Word := 0xbeef8082
def ps2netfsRmdirCmd : Word := 0xbeef8091
def ps2netfsRmdirRly : Word := 0xbeef8092
def ps2netfsDopenCmd : Word := 0xbeef80a1
def ps2netfsDopenRly : Word := 0xbeef80a2
def ps2netfsDcloseCmd : Word := 0xbeef80b1
def ps2netfsDcloseRly : Word := 0xbeef80b2
def ps2netfsDreadCmd : Word := 0xbeef80c1
def ps2netfsDreadRly : Word := 0xbeef80c2
def ps2netfsFormatRly : Word := 0xbeef80f2
def ps2netfsSyncCmd : Word := 0xbeef8131
def ps2netfsSyncRly : Word := 0xbeef8132
def ps2netfsMountCmd : Word := 0xbeef8141
def ps2netfsMountRly : Word := 0xbeef8142
def ps2netfsUmountCmd : Word := 0xbeef8151
def ps2netfsUmountRly : Word := 0xbeef8152
def ps2netfsDevlistCmd : Word := 0xbeef8f21
def ps2netfsDevlistRly : Word := 0xbeef8f22

/-- `ps2netfs_accept_pkt` behind the receiving of the header. `length` is
unsigned, so that only 0 passes for an error. -/
def acceptBody (sock : Int) (len : Nat) (pktType : Word) : Io Int := do
  let hdr ← loadPacket
  if ntohl (hdr.word 0) ≠ pktType then
    closeNetfs
    pure 0
  else if (ntohs (hdr.half 4)).toNat > len then pure 0
  else
    let length ← pkoRecvBytes sock (.recvPacket pktHdrSize) ((ntohs (hdr.half 4)).toNat - pktHdrSize)
    pure (if length.1 = 0 then 0 else 1)

/-- The result is -1, 0 or 1. -/
def ps2netfsAcceptPkt (sock : Int) (len : Nat) (pktType : Word) : Io Int := do
  emit (.await pktType) rfl
  let length ← pkoRecvBytes sock (.recvPacket 0) pktHdrSize
  if length.1 = 0 then pure (-1) else acceptBody sock len pktType

/-- What the requests have in common: the fields are filled in, the struct is
sent, and unless that made the request give up its reply is waited for. The
value is the packet the reply is taken from. -/
def netfsCall (fields : List (Nat × List Byte)) (sends : Io Bool) (len : Nat) (pktType : Word) :
    Io (Option Mem) := do
  setVars fun v => { v with sendPacket := v.sendPacket.stores fields }
  let sent ← sends
  if sent then
    let w ← Prog.get
    let accepted ← ps2netfsAcceptPkt w.ps2NetfsFd len pktType
    if accepted = 0 then pure none
    else
      let response ← loadPacket
      pure (some response)
  else pure none

/-- The result of `send` is not looked at. -/
def sendRequest (size : Nat) : Io Bool := do
  let w ← Prog.get
  let _ ← sysSend w.ps2NetfsFd (w.sendPacket.slice 0 size)
  pure true

/-- `ntohl(response->retval)`, or -1 without a reply. -/
def retval (response : Option Mem) : Int := response.elim (-1) fun m => (ntohl (m.word 6)).toInt

def ps2netfsReqOpen (path : List Byte) (mode : Word) : Io Int := do
  let response ← netfsCall (reqHdr ps2netfsOpenCmd pktFileReqSize ++
      [(6, le32 (htonl mode)), (10, strncpy path maxPath)])
    (sendRequest pktFileReqSize) pktFileRlySize ps2netfsOpenRly
  pure (retval response)

def ps2netfsReqClose (fd : Word) : Io Int := do
  let response ← netfsCall (reqHdr ps2netfsCloseCmd pktCloseReqSize ++ [(6, le32 (htonl fd))])
    (sendRequest pktCloseReqSize) pktFileRlySize ps2netfsCloseRly
  pure (retval response)

/-- The value also holds the bytes put at `ptr`. -/
def ps2netfsReqRead (fd size : Word) : Io (Int × List Byte) := do
  let response ← netfsCall (reqHdr ps2netfsReadCmd pktReadReqSize ++
      [(6, le32 (htonl fd)), (10, le32 (htonl size))])
    (sendRequest pktReadReqSize) pktReadRlySize ps2netfsReadRly
  match response with
  | none => pure (-1, [])
  | some m =>
    -- `ntohl` is unsigned, so a negative count is asked for as well
    if ntohl (m.word 6) > 0 then
      let w ← Prog.get
      let got ← pkoRecvBytes w.ps2NetfsFd .caller (ntohl (m.word 6)).toInt
      pure (retval response, got.2)
    else pure (retval response, [])

/-- The two calls of `send`; the request gives up when one of them fails. -/
def sendWrite (ptr : Mem) (size : Word) : Io Bool := do
  let w ← Prog.get
  let ret ← sysSend w.ps2NetfsFd (w.sendPacket.slice 0 pktWriteReqSize)
  if ret < 0 then pure false
  else
    let ret ← sysSend w.ps2NetfsFd (ptr.slice 0 (sizeT size.toInt))
    pure (if ret < 0 then false else true)

def ps2netfsReqWrite (fd : Word) (ptr : Mem) (size : Word) : Io Int := do
  let response ← netfsCall (reqHdr ps2netfsWriteCmd pktWriteReqSize ++
      [(6, le32 (htonl fd)), (10, le32 (htonl size))])
    (sendWrite ptr size) pktFileRlySize ps2netfsWriteRly
  pure (retval response)

def ps2netfsReqLseek (fd offset whence : Word) : Io Int := do
  let response ← netfsCall (reqHdr ps2netfsLseekCmd pktLseekReqSize ++
      [(6, le32 (htonl fd)), (10, le32 (htonl offset)), (14, le32 (htonl whence))])
    (sendRequest pktLseekReqSize) pktFileRlySize ps2netfsLseekRly
  pure (retval response)

def ps2netfsReqDopen (path : List Byte) : Io Int := do
  let response ← netfsCall (reqHdr ps2netfsDopenCmd pktFileReqSize ++ [(10, strncpy path maxPath)])
    (sendRequest pktFileReqSize) pktFileRlySize ps2netfsDopenRly
  pure (retval response)

structure Dirent where
  mode : Word
  attr : Word
  size : Word
  times : List Byte
  hisize : Word
  name : List Byte
deriving DecidableEq, Repr

/-- The entry is only assigned when there is a reply. -/
def ps2netfsReqDread (fd : Word) : Io (Int × Option Dirent) := do
  let response ← netfsCall (reqHdr ps2netfsDreadCmd pktDreadReqSize ++ [(6, le32 (htonl fd))])
    (sendRequest pktDreadReqSize) pktDreadRlySize ps2netfsDreadRly
  pure (retval response, response.map fun m =>
    { mode := ntohl (m.word 10)
      attr := ntohl (m.word 14)
      size := ntohl (m.word 18)
      times := m.slice 22 24
      hisize := ntohl (m.word 46)
      name := strncpy (m.cstr 50 maxPath) maxPath })

def ps2netfsReqDclose (fd : Word) : Io Int := do
  let response ← netfsCall (reqHdr ps2netfsDcloseCmd pktCloseReqSize ++ [(6, le32 (htonl fd))])
    (sendRequest pktCloseReqSize) pktFileRlySize ps2netfsDcloseRly
  pure (retval response)

/-- The list is only copied when there is a reply. -/
def ps2netfsReqDevlist : Io (Int × Option (List Byte)) := do
  let response ← netfsCall (reqHdr ps2netfsDevlistCmd pktDevlistReqSize ++ [(10, [0]), (11, [0])])
    (sendRequest pktDevlistReqSize) pktDevlistRlySize ps2netfsDevlistRly
  pure (retval response, response.map fun m => m.slice 14 maxPath)

/-- The reply may be as long as the request. -/
def ps2netfsReqMount (fsname devname : List Byte) (flag : Word) (arg : List Byte) (arglen : Word) : Io Int := do
  let response ← netfsCall (reqHdr ps2netfsMountCmd pktMountReqSize ++
      [(6, strncpy fsname maxPath), (262, strncpy devname maxPath), (518, le32 (htonl flag)),
        (522, strncpy arg maxPath), (778, le32 (htonl arglen))])
    (sendRequest pktMountReqSize) pktMountReqSize ps2netfsMountRly
  pure (retval response)

/-- `&request` is the address of the pointer: what is sent is the pointer and
the memory behind it. -/
def sendPointer : Io Bool := do
  let w ← Prog.get
  let _ ← sysSend w.ps2NetfsFd ((w.os.stack w.now).slice 0 pktFileReqSize)
  pure true

/-- `sizeof(request)`. -/
def pointerSize : Nat := 8

def ps2netfsReqUmount (path : List Byte) (flags : Word) : Io Int := do
  let response ← netfsCall (reqHdr ps2netfsUmountCmd pointerSize ++
      [(6, le32 flags), (10, strncpy path maxPath)])
    sendPointer pktFileRlySize ps2netfsUmountRly
  pure (retval response)

def ps2netfsReqMkdir (path : List Byte) : Io Int := do
  let response ← netfsCall (reqHdr ps2netfsMkdirCmd pktFileReqSize ++ [(10, strncpy path maxPath)])
    (sendRequest pktFileReqSize) pktFileRlySize ps2netfsMkdirRly
  pure (retval response)

def ps2netfsReqRmdir (path : List Byte) : Io Int := do
  let response ← netfsCall (reqHdr ps2netfsRmdirCmd pktFileReqSize ++
      [(6, le32 (htonl 0)), (10, strncpy path maxPath)])
    (sendRequest pktFileReqSize) pktFileRlySize ps2netfsRmdirRly
  pure (retval response)

/-- The size of the reply is sent. -/
def ps2netfsReqSync (path : List Byte) (flag : Word) : Io Int := do
  let response ← netfsCall (reqHdr ps2netfsSyncCmd pktFileReqSize ++
      [(6, le32 (htonl flag)), (10, strncpy path maxPath)])
    (sendRequest pktFileRlySize) pktFileRlySize ps2netfsSyncRly
  pure (retval response)

/-- `request->len = htonl(len)`: the upper half of the word is lost. -/
def reqHdrLong (cmd : Word) (len : Nat) : List (Nat × List Byte) :=
  [(0, le32 (htonl cmd)), (4, le16 ((htonl (BitVec.ofNat 32 len)).setWidth 16))]

/-- `if ( path ) strncpy(request->path, path, MAX_PATH)` -/
def optionalPath (path : Option (List Byte)) : List (Nat × List Byte) :=
  match path with
  | none => []
  | some path => [(10, strncpy path maxPath)]

def ps2netfsReqDelete (path : Option (List Byte)) (flags : Word) : Io Int := do
  let response ← netfsCall (reqHdrLong ps2netfsRemoveCmd pktFileReqSize ++
      (6, le32 (htonl flags)) :: optionalPath path)
    (sendRequest pktFileReqSize) pktFileRlySize ps2netfsRemoveRly
  pure (retval response)

/-- The command is that of a delete. -/
def ps2netfsReqFormat (path : Option (List Byte)) (flags : Word) : Io Int := do
  let response ← netfsCall (reqHdrLong ps2netfsRemoveCmd pktFileReqSize ++
      (6, le32 (htonl flags)) :: optionalPath path)
    (sendRequest pktFileReqSize) pktFileRlySize ps2netfsFormatRly
  pure (retval response)

end Pksh
