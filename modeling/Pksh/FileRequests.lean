import Pksh.Lib.Mimic
import Pksh.Lib.Watch
import Pksh.DirEntries
import Pksh.Framing

/-! The file server without its link: each request with its fields and its
payload, carried out on the files of the host. -/

namespace Pksh

open Wire Traced

/-- A payload in pieces as long as the packet buffer. -/
def segmentsFrom : Nat → List Byte → List (List Byte)
  | 0, _ => []
  | n + 1, data =>
    if data = [] then [] else data.take packetMaxsize :: segmentsFrom n (data.drop packetMaxsize)

def segments (data : List Byte) : List (List Byte) := segmentsFrom data.length data

/-- The pieces go to the file until one is not taken whole; the value is how
many bytes were. -/
def writeAll (fd : Int) : List (List Byte) → Io Nat
  | [] => pure 0
  | piece :: pieces => do
    let written ← sysWrite fd piece
    match written with
    | none => pure 0
    | some n =>
      if n < piece.length then pure n
      else do
        let rest ← writeAll fd pieces
        pure (n + rest)

def openRequest (flags : Word) (path : List Byte) : Io Unit := do
  let first ← sysOpen (fixedPath path) (pkoFixFlags flags) openMode
  let w ← Prog.get
  let retval ← if first = -1 then openAlong (fixedPath path) (pkoFixFlags flags) w.pathList else pure first
  let _ ← answer openRly (cWord retval)

/-- A directory that cannot be opened is not answered. -/
def openDirRequest (path : List Byte) : Io Unit := do
  putWord 0 (htonl dopenRly)
  putHalf 4 (htons (BitVec.ofNat 16 pktFileRlySize))
  let dirp ← sysOpendir (fixedPath path)
  match dirp with
  | none => pure ()
  | some dirp =>
    putWord 6 (htonl dirp)
    sendReply pktFileRlySize

def readDirRequest (dir : Word) : Io Unit := do
  putWord 0 (htonl dreadRly)
  putHalf 4 (htons (BitVec.ofNat 16 pktDreadRlySize))
  let entry ← sysReaddir dir
  putWord 6 (htonl entry.1)
  if entry.1 = 0 then sendReply pktDreadRlySize
  else
    let st ← sysStat entry.2
    putWord 10 (htonl (dreadMode st.2.mode))
    putWord 14 (htonl 0)
    putWord 18 (htonl (cWord st.2.size))
    putTime 22 st.2.ctime
    putTime 30 st.2.atime
    putTime 38 st.2.mtime
    putWord 46 (htonl 0)
    putSend 50 (strncpy entry.2 256)
    sendReply pktDreadRlySize

/-- A read that gets no buffer is not answered. -/
def readRequest (fd nbytes : Int) : Io Unit := do
  putWord 0 (htonl readRly)
  putHalf 4 (htons (BitVec.ofNat 16 pktReadRlySize))
  putWord 6 (htonl (cWord fd))
  let ok ← sysMalloc (sizeT nbytes)
  if ok then
    let filebuf ← sysRead fd (sizeT nbytes)
    let readbytes : Int := match filebuf with
      | none => -1
      | some bs => bs.length
    putWord 10 (htonl (cWord readbytes))
    sendReply pktReadRlySize
    let w ← Prog.get
    let _ ← pkoSendBytes w.pkoSrvFd (filebuf.getD []) readbytes
  else pure ()

/-- What a request asks the host for, and its reply. -/
def FileReq.serve : FileReq → Io Unit
  | .openFile flags path => openRequest flags path.path
  | .openDir _ path => openDirRequest path.path
  | .readDir dir => readDirRequest dir
  | .closeDir dir => do
    let retval ← sysClosedir dir
    let _ ← answer dcloseRly (cWord retval)
  | .closeFile fd => do
    let retval ← sysClose fd.toInt
    let _ ← answer closeRly (cWord retval)
  | .readFile fd nbytes => readRequest fd.toInt nbytes.toInt
  | .writeFile fd payload _ => do
    let written ← writeAll fd.toInt (segments payload)
    let _ ← answer writeRly (cWord written)
  | .lseekFile fd offset whence => do
    let retval ← sysLseek fd.toInt offset.toInt whence.toInt
    let _ ← answer lseekRly (cWord retval)

def serveRequests (reqs : List FileReq) : Io Unit := runAll FileReq.serve reqs

theorem pkoOpenDir_parts (v : World) :
    let v' := (v.fill 0 (le32 (htonl dopenRly))).fill 4 (le16 (htons (BitVec.ofNat 16 pktFileRlySize)))
    pkoOpenDir.run v = ((sysOpendir (packetStr ((pkoFixPath 10).run v').state.recvPacket 10) >>= fun dirp =>
      match dirp with
      | none => pure (-1)
      | some dirp => do
        putWord 6 (htonl dirp)
        sendReply pktFileRlySize
        pure 0).run ((pkoFixPath 10).run v').state).after [.handle (.openDir (packetStr v.recvPacket 10))] := rfl

theorem pkoReadFile_parts (v : World) :
    let fd := (ntohl (v.recvPacket.word 6)).toInt
    let nbytes := (ntohl (v.recvPacket.word 10)).toInt
    pkoReadFile.run v = ((do
      putWord 0 (htonl readRly)
      putHalf 4 (htons (BitVec.ofNat 16 pktReadRlySize))
      putWord 6 (htonl (cWord fd))
      let ok ← sysMalloc (sizeT nbytes)
      if ok then
        let filebuf ← sysRead fd (sizeT nbytes)
        let readbytes : Int := match filebuf with
          | none => -1
          | some bs => bs.length
        putWord 10 (htonl (cWord readbytes))
        sendReply pktReadRlySize
        let w ← Prog.get
        let _ ← pkoSendBytes w.pkoSrvFd (filebuf.getD []) readbytes
        pure 0
      else
        pure (-1) : Io Int).run v).after [.handle (.readFile fd nbytes)] := rfl

end Pksh
