import Pksh.Lib.Memory

/-! Command codes, reply codes and sizes of the packets, as the headers of the
link protocol and of the netfs protocol define them. -/

namespace Pksh

open Wire

def packetMaxsize : Nat := 4096
def maxPath : Nat := 256

def openCmd : Word := 0xbabe0111
def openRly : Word := 0xbabe0112
def closeCmd : Word := 0xbabe0121
def closeRly : Word := 0xbabe0122
def readCmd : Word := 0xbabe0131
def readRly : Word := 0xbabe0132
def writeCmd : Word := 0xbabe0141
def writeRly : Word := 0xbabe0142
def lseekCmd : Word := 0xbabe0151
def lseekRly : Word := 0xbabe0152
def dopenCmd : Word := 0xbabe0161
def dopenRly : Word := 0xbabe0162
def dcloseCmd : Word := 0xbabe0171
def dcloseRly : Word := 0xbabe0172
def dreadCmd : Word := 0xbabe0181
def dreadRly : Word := 0xbabe0182

def resetCmd : Word := 0xbabe0201
def execiopCmd : Word := 0xbabe0202
def execeeCmd : Word := 0xbabe0203
def poweroffCmd : Word := 0xbabe0204
def dumpmemCmd : Word := 0xbabe0207
def startvuCmd : Word := 0xbabe0208
def stopvuCmd : Word := 0xbabe0209
def dumpregsCmd : Word := 0xbabe020a
def gsexecCmd : Word := 0xbabe020b

def pktHdrSize : Nat := 6
def pktFileRlySize : Nat := 10
def pktFileReqSize : Nat := 266
def pktCloseReqSize : Nat := 10
def pktReadReqSize : Nat := 14
def pktReadRlySize : Nat := 14
def pktWriteReqSize : Nat := 14
def pktLseekReqSize : Nat := 18
def pktDreadReqSize : Nat := 10
def pktDreadRlySize : Nat := 306
def pktMountReqSize : Nat := 782
def pktDevlistReqSize : Nat := 266
def pktDevlistRlySize : Nat := 270
def pktResetReqSize : Nat := 6
def pktExeceeReqSize : Nat := 266
def pktExeciopReqSize : Nat := 266
def pktGsexecReqSize : Nat := 264
def pktMemioReqSize : Nat := 270
def pktStopvuReqSize : Nat := 10
def pktStartvuReqSize : Nat := 10
def pktDumpregsReqSize : Nat := 266

/-- The commands the dispatchers of pksh and of the batch tools switch over. -/
inductive Cmd
  | open | close | read | write | lseek | dopen | dread | dclose
  | dumpmem | dumpregs | gsexec | stopvu | startvu | execee | execiop | reset
deriving DecidableEq, Repr

namespace Cmd

def all : List Cmd :=
  [.open, .close, .read, .write, .lseek, .dopen, .dread, .dclose,
    .dumpmem, .dumpregs, .gsexec, .stopvu, .startvu, .execee, .execiop, .reset]

def code : Cmd → Word
  | .open => openCmd
  | .close => closeCmd
  | .read => readCmd
  | .write => writeCmd
  | .lseek => lseekCmd
  | .dopen => dopenCmd
  | .dread => dreadCmd
  | .dclose => dcloseCmd
  | .dumpmem => dumpmemCmd
  | .dumpregs => dumpregsCmd
  | .gsexec => gsexecCmd
  | .stopvu => stopvuCmd
  | .startvu => startvuCmd
  | .execee => execeeCmd
  | .execiop => execiopCmd
  | .reset => resetCmd

/-- The case of the switch a command word selects. -/
def ofCode (w : Word) : Option Cmd := all.find? (fun c => c.code = w)

@[simp] theorem ofCode_code (c : Cmd) : ofCode c.code = some c := by
  cases c <;> decide

/-- The commands that are requests for local files. -/
def isFileIo : Cmd → Bool
  | .open | .close | .read | .write | .lseek | .dopen | .dread | .dclose => true
  | _ => false

end Cmd

/-- What a file request handler was asked to do. -/
inductive Call
  | openFile (flags : Word) (path : List Byte)
  | openDir (path : List Byte)
  | readDir (dir : Word)
  | closeDir (dir : Word)
  | closeFile (fd : Int)
  | readFile (fd nbytes : Int)
  | writeFile (fd nbytes : Int)
  | lseekFile (fd offset whence : Int)
deriving DecidableEq, Repr

/-- The code of the reply that belongs to a file request. -/
def Cmd.rly : Cmd → Option Word
  | .open => some openRly
  | .close => some closeRly
  | .read => some readRly
  | .write => some writeRly
  | .lseek => some lseekRly
  | .dopen => some dopenRly
  | .dread => some dreadRly
  | .dclose => some dcloseRly
  | _ => none

theorem Cmd.isFileIo_iff (c : Cmd) : c.isFileIo = true ↔ c.rly ≠ none := by
  cases c <;> simp [Cmd.isFileIo, Cmd.rly]

def rlyCodes : List Word := Cmd.all.filterMap Cmd.rly

theorem Cmd.code_not_rly (c : Cmd) : c.code ∉ rlyCodes := by
  cases c <;> decide

end Pksh
