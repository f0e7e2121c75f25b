import Pksh.Screen
import Pksh.Transfers
import Mathlib.Data.List.GetD

/-! What `ls` shows of a directory on the PS2: a line for each entry, from which
the entry can be read again. -/

namespace Pksh

open Wire Traced

inductive Kind
  | dir
  | link
  | file
deriving DecidableEq

namespace Kind

def char : Kind → Byte
  | dir => byteOf 'd'
  | link => byteOf 'l'
  | file => byteOf '-'

def ofMode (mode : Half) : Kind :=
  if mode &&& fioSIfdir ≠ 0 then .dir else if mode &&& fioSIflnk ≠ 0 then .link else .file

def read : List Byte → Option (Kind × List Byte)
  | [] => none
  | c :: s =>
    if c = byteOf 'd' then some (dir, s)
    else if c = byteOf 'l' then some (link, s)
    else if c = byteOf '-' then some (file, s)
    else none

theorem back (k : Kind) (rest : List Byte) : read ([k.char] ++ rest) = some (k, rest) := by
  cases k <;> rfl

def field : Item Byte Kind := ⟨fun k => [k.char], read, back⟩

end Kind

abbrev Perms := Fin 9 → Bool

namespace Perms

def ofMode (mode : Half) : Perms := fun i => mode.getLsbD (8 - i)

def letters : List Byte := str "rwxrwxrwx"

def text (p : Perms) : List Byte := List.ofFn fun i : Fin 9 => if p i then letters.getD i 0 else byteOf '-'

def read (s : List Byte) : Option (Perms × List Byte) :=
  if 9 ≤ s.length then some (fun i => s.getD i 0 ≠ byteOf '-', s.drop 9) else none

theorem text_length (p : Perms) : p.text.length = 9 := List.length_ofFn

theorem letters_ne (i : Fin 9) : letters.getD i 0 ≠ byteOf '-' := by
  revert i
  decide

theorem back (p : Perms) (rest : List Byte) : read (p.text ++ rest) = some (p, rest) := by
  have hl := p.text_length
  have hbits : (fun i : Fin 9 => decide ((p.text ++ rest).getD i 0 ≠ byteOf '-')) = p := by
    funext i
    have hi : (i : Nat) < p.text.length := by omega
    rw [List.getD_append _ _ _ _ hi, List.getD_eq_getElem _ _ hi]
    simp only [text, List.getElem_ofFn]
    by_cases hp : p i = true
    · rw [if_pos hp, hp]
      exact decide_eq_true (letters_ne i)
    · rw [if_neg hp]
      simpa using hp
  rw [read, if_pos (by rw [List.length_append]; omega), hbits, ← hl, List.drop_left]

def field : Item Byte Perms := ⟨text, read, back⟩

end Perms

abbrev Month := Fin 12

namespace Month

def text (m : Month) : List Byte := strMonth.getD m [] ++ [space]

def read (s : List Byte) : Option (Month × List Byte) :=
  if h : strMonth.idxOf (s.take 3) < 12 then (Item.strip [space] (s.drop 3)).map fun r => (⟨_, h⟩, r) else none

theorem text_index (m : Month) : (strMonth.getD m []).length = 3 ∧ strMonth.idxOf (strMonth.getD m []) = m := by
  revert m
  decide

theorem back (m : Month) (rest : List Byte) : read (m.text ++ rest) = some (m, rest) := by
  obtain ⟨hl, hi⟩ := text_index m
  have htake : (m.text ++ rest).take 3 = strMonth.getD m [] := by
    rw [text, List.append_assoc, ← hl, List.take_left]
  have hdrop : (m.text ++ rest).drop 3 = [space] ++ rest := by
    rw [text, List.append_assoc, ← hl, List.drop_left]
  have hlt : strMonth.idxOf ((m.text ++ rest).take 3) < 12 := by
    rw [htake, hi]
    exact m.isLt
  rw [read, dif_pos hlt, hdrop, Item.strip_append, Option.map_some]
  simp only [htake, hi]

def field : Item Byte Month := ⟨text, read, back⟩

end Month

structure Look where
  kind : Kind
  perms : Perms
  attr : Word
  size : Word
  month : Month
  day : Byte
  hour : Byte
  minute : Byte
  name : Cell newline space

theorem spells_ten : Spells byteOf digitValue 10 := ⟨by decide, by decide⟩

theorem spells_sixteen : Spells byteOf digitValue 16 := ⟨by decide, by decide⟩

theorem decimal_column : Column byteOf digitValue 10 space := ⟨spells_ten, by decide, by decide, by decide⟩

theorem space_closes_ten : Closes digitValue 10 [space] := ⟨space, [], rfl, by decide⟩

theorem space_closes_sixteen : Closes digitValue 16 [space] := ⟨space, [], rfl, by decide⟩

theorem colon_closes_ten : Closes digitValue 10 [byteOf ':'] := ⟨byteOf ':', [], rfl, by decide⟩

theorem space_ne_newline : space ≠ newline := by decide

namespace Look

/-- The fields of a line, from left to right. -/
abbrev Fields := Kind × Perms × Nat × Int × Month × Int × Int × Nat × Cell newline space

def fields : Item Byte Fields :=
  Kind.field.seq (Perms.field.seq ((Item.tagged (str " 0x") (.zeroed spells_sixteen 4 [space] space_closes_sixteen)).seq
    ((Item.spaced decimal_column 9 [space] space_closes_ten).seq (Month.field.seq
      ((Item.spaced decimal_column 2 [space] space_closes_ten).seq
        ((Item.spaced decimal_column 2 [byteOf ':'] colon_closes_ten).seq
          ((Item.zeroed spells_ten 2 [space] space_closes_ten).seq
            (Item.cell space_ne_newline fun n => 20 - n + 1))))))))

def into (l : Look) : Fields :=
  (l.kind, l.perms, l.attr.toNat, l.size.toInt, l.month, l.day.toNat, l.hour.toNat, l.minute.toNat, l.name)

def out (f : Fields) : Look :=
  match f with
  | (kind, perms, attr, size, month, day, hour, minute, name) =>
    ⟨kind, perms, .ofNat 32 attr, .ofInt 32 size, month, .ofInt 8 day, .ofInt 8 hour, .ofNat 8 minute, name⟩

theorem out_into (l : Look) : out l.into = l := by
  obtain ⟨kind, perms, attr, size, month, day, hour, minute, name⟩ := l
  simp only [into, out, BitVec.ofNat_toNat, BitVec.ofInt_toInt, BitVec.ofInt_natCast, BitVec.setWidth_eq]

def field : Item Byte Look := fields.via into out out_into

end Look

/-- An entry as the server gives it out: dated in one of the twelve months, and
with a name that fits and can stand at the end of a line. -/
structure Entry where
  found : Word
  mode : Word
  attr : Word
  size : Word
  times : List Byte
  hisize : Word
  name : Cell newline space
  more : 0 < found.toInt
  stamped : times.length = 24
  dated : 1 ≤ (times.getD 21 0).toNat ∧ (times.getD 21 0).toNat ≤ 12
  named : 0 ∉ name.text
  short : name.text.length < maxPath

namespace Entry

def dirent (e : Entry) : Dirent := ⟨e.mode, e.attr, e.size, e.times, e.hisize, strncpy e.name.text maxPath⟩

theorem month_lt (e : Entry) : (e.times.getD 21 0).toNat - 1 < 12 := by
  have := e.dated
  omega

def look (e : Entry) : Look where
  kind := .ofMode (e.mode.setWidth 16)
  perms := .ofMode (e.mode.setWidth 16)
  attr := e.attr
  size := e.size
  month := ⟨(e.times.getD 21 0).toNat - 1, e.month_lt⟩
  day := e.times.getD 20 0
  hour := e.times.getD 19 0
  minute := e.times.getD 18 0
  name := e.name

end Entry

theorem bit_set_iff (mode : Half) {i : Nat} (hi : i < 16) : (1 : Half) <<< i &&& mode ≠ 0 ↔ mode.getLsbD i = true := by
  have hand : (1 : Half) <<< i &&& mode = if mode.getLsbD i then BitVec.twoPow 16 i else 0 := by
    rw [BitVec.and_comm]
    exact BitVec.and_twoPow mode i
  have hne : BitVec.twoPow 16 i ≠ 0 := fun he => by
    have hbit := congrArg (fun v => BitVec.getLsbD v i) he
    simp [hi] at hbit
  rw [hand]
  by_cases hb : mode.getLsbD i = true
  · rw [if_pos hb]
    exact ⟨fun _ => hb, fun _ => hne⟩
  · rw [if_neg hb]
    exact ⟨fun h => absurd rfl h, fun h => absurd h hb⟩

theorem modeChar_eq (mode : Half) (i : Fin 9) :
    modeChar mode (8 - i) = if Perms.ofMode mode i then Perms.letters.getD i 0 else byteOf '-' := by
  have hletter : (if 8 - (i : Nat) = 9 then byteOf 's' else if (8 - (i : Nat)) % 3 = 2 then byteOf 'r'
      else if (8 - (i : Nat)) % 3 = 1 then byteOf 'w' else byteOf 'x') = Perms.letters.getD i 0 := by
    clear mode
    revert i
    decide
  have hbit := bit_set_iff mode (show 8 - (i : Nat) < 16 by omega)
  rw [modeChar, hletter, Perms.ofMode]
  simp only [hbit]

theorem showMode_eq (mode : Half) : ps2netfsShowMode mode = [(Kind.ofMode mode).char] ++ (Perms.ofMode mode).text := by
  have hbits : [8, 7, 6, 5, 4, 3, 2, 1, 0].map (modeChar mode) = (Perms.ofMode mode).text := by
    have hlist : ([8, 7, 6, 5, 4, 3, 2, 1, 0] : List Nat) = List.ofFn fun i : Fin 9 => 8 - (i : Nat) := by decide
    rw [hlist, List.map_ofFn, Perms.text]
    exact congrArg List.ofFn (funext fun i => modeChar_eq mode i)
  rw [ps2netfsShowMode, hbits, List.singleton_append, Kind.ofMode]
  congr 1
  split
  · rfl
  · split <;> rfl

theorem fullSize_low (d : Dirent) : d.fullSize.setWidth 32 = d.size := by
  refine BitVec.eq_of_getLsbD_eq fun i hi => ?_
  simp [Dirent.fullSize, hi]

theorem column20_eq (c : Cell newline space) :
    column20 c.text ++ str " \n" = (Item.cell space_ne_newline fun n => 20 - n + 1).put c := by
  have hend : str " \n" = [space] ++ [newline] := rfl
  have hput : (Item.cell space_ne_newline fun n => 20 - n + 1).put c =
      c.text ++ List.replicate (20 - c.text.length + 1) space ++ [newline] := rfl
  rw [hput, column20, List.rightpad, hend, List.replicate_succ']
  simp only [List.append_assoc]

theorem month_eq (m : Month) : strMonth[(m : Nat)]? = some (strMonth.getD m []) := by
  revert m
  decide

theorem Entry.text (e : Entry) : (Printed.entry e.dirent).text = some (Look.field.put e.look) := by
  have hm0 : e.dirent.mtime 5 ≠ 0 := fun he => by
    have h := e.dated.1
    rw [show e.times.getD 21 0 = 0 from he] at h
    cases h
  have hmonth : strMonth[(e.dirent.mtime 5).toNat - 1]? = some (strMonth.getD e.look.month []) := month_eq e.look.month
  have hname : arrayStr e.dirent.name = some e.name.text := arrayStr_strncpy e.named e.short
  have hput : Look.field.put e.look = [e.look.kind.char] ++ (e.look.perms.text ++ ((str " 0x" ++ (hex4 e.attr ++ [space])) ++
      ((decimal 9 e.size.toInt ++ [space]) ++ ((strMonth.getD e.look.month [] ++ [space]) ++
        ((decimal 2 e.look.day.toNat ++ [space]) ++ ((decimal 2 e.look.hour.toNat ++ [byteOf ':']) ++
          ((decimal2 e.look.minute ++ [space]) ++ (Item.cell space_ne_newline fun n => 20 - n + 1).put e.name))))))) := rfl
  rw [Printed.text, ps2netfsShowStat, if_neg hm0, hmonth, hname, hput, ← column20_eq, showMode_eq, fullSize_low]
  simp only [Option.map_some, Option.bind_eq_bind, Option.bind_some, List.append_assoc, Option.some.injEq]
  rfl

theorem slice_split {m : Mem} {off n : Nat} {field rest : List Byte} (h : m.slice off n = field ++ rest) :
    m.slice off field.length = field ∧ m.slice (off + field.length) (n - field.length) = rest := by
  have hn := congrArg List.length h
  rw [Mem.slice_length, List.length_append] at hn
  have ht := congrArg (List.take field.length) h
  have hd := congrArg (List.drop field.length) h
  rw [Mem.slice_take m _ (by omega), List.take_left] at ht
  rw [Mem.slice_drop m _ (by omega), List.drop_left] at hd
  exact ⟨ht, hd⟩

namespace Entry

def body (e : Entry) : List Byte :=
  be32 e.found ++ (be32 e.mode ++ (be32 e.attr ++ (be32 e.size ++ (e.times ++ (be32 e.hisize ++
    strncpy e.name.text maxPath)))))

theorem body_length (e : Entry) : e.body.length = pktDreadRlySize - pktHdrSize := by
  simp only [body, List.length_append, be32_length, e.stamped, strncpy_length]
  rfl

/-- The reply with an entry: the whole struct. -/
def reply (e : Entry) : Reply := ⟨ps2netfsDreadRly, BitVec.ofNat 16 pktDreadRlySize, e.body, e.body_length⟩

theorem reply_answers (e : Entry) (fd : Word) : e.reply.Answers (.dread fd) :=
  ⟨rfl, Nat.le_of_ble_eq_true rfl, Nat.le_of_ble_eq_true rfl⟩

theorem reply_retval (e : Entry) : e.reply.retval = e.found := ofBe32_be32_append _ _

theorem ofReply_reply (e : Entry) {m : Mem} (hm : m.slice 0 pktDreadRlySize = e.reply.bytes) :
    Dirent.ofReply m = e.dirent := by
  have hcmd : m.slice 0 pktDreadRlySize = be32 ps2netfsDreadRly ++ (be16 (BitVec.ofNat 16 pktDreadRlySize) ++ e.body) := hm
  obtain ⟨-, hlen⟩ := slice_split hcmd
  obtain ⟨-, hbody⟩ := slice_split hlen
  obtain ⟨-, hrest⟩ := slice_split hbody
  obtain ⟨hmode, hrest⟩ := slice_split hrest
  obtain ⟨hattr, hrest⟩ := slice_split hrest
  obtain ⟨hsize, hrest⟩ := slice_split hrest
  obtain ⟨htimes, hrest⟩ := slice_split hrest
  rw [e.stamped] at htimes hrest
  obtain ⟨hhi, hname⟩ := slice_split hrest
  have hstr : m.cstr 50 maxPath = e.name.text := by
    have h : m.slice 50 maxPath = strncpy e.name.text maxPath := hname
    rw [Mem.cstr, h, takeWhile_strncpy e.named, List.take_of_length_le (Nat.le_of_lt e.short)]
  have hm10 : ntohl (m.word 10) = e.mode := Mem.ntohl_word_eq_iff.mpr hmode
  have hm14 : ntohl (m.word 14) = e.attr := Mem.ntohl_word_eq_iff.mpr hattr
  have hm18 : ntohl (m.word 18) = e.size := Mem.ntohl_word_eq_iff.mpr hsize
  have hm46 : ntohl (m.word 46) = e.hisize := Mem.ntohl_word_eq_iff.mpr hhi
  have hm22 : m.slice 22 24 = e.times := htimes
  rw [Dirent.ofReply, hm10, hm14, hm18, hm46, hm22, hstr, dirent]

end Entry

/-- What the server sends when a directory is listed. -/
structure Directory where
  opened : Reply
  entries : List Entry
  last : Reply
  closed : Reply
  opens : opened.Returns ps2netfsDopenRly
  granted : 0 < opened.retval.toInt
  ends : last.Answers (.dread opened.retval)
  done : last.retval.toInt ≤ 0
  closes : closed.Returns ps2netfsDcloseRly

namespace Directory

def replies (es : List Entry) : List Byte := es.flatMap fun e => e.reply.bytes

def stream (d : Directory) : List Byte :=
  d.opened.bytes ++ (replies d.entries ++ (d.last.bytes ++ d.closed.bytes))

def requests (d : Directory) (path : List Byte) : List NetfsReq :=
  [.dopen path] ++ ((d.entries.map fun _ => .dread d.opened.retval) ++ [.dread d.opened.retval, .dclose d.opened.retval])

end Directory

section Listings

variable {fd : Int} {rest : List Byte} {w : World}

theorem value_run {p : Reply} (r : NetfsReq) (hp : p.Returns r.awaits) (hr : r.room = pktFileRlySize)
    (h : Talking fd (p.bytes ++ rest) w) : ∃ v as, r.run.run w = ⟨some p.retval.toInt, v, as⟩ ∧ Talking fd rest v ∧
      v.os = w.os ∧ Asks fd [r] (outgoing as) := by
  have hdata : ([] : List Byte).length = r.data p.retval := by
    cases r with
    | read d size => cases hr
    | _ => rfl
  have hb : p.bytes ++ rest = p.bytes ++ [] ++ rest := by rw [List.append_nil]
  rw [hb] at h
  obtain ⟨v, as, hrun, ht, -, hasks⟩ :=
    exchange_run ⟨r, p, [], ⟨hp.cmd, Nat.le_of_eq hp.len.symm, by rw [hp.len, hr]⟩, hdata⟩ h
  have hk := r.run.keeps w
  rw [hrun] at hk
  exact ⟨v, as, hrun, ht, hk.os, hasks⟩

theorem dread_takes {p : Reply} (d : Word) (ha : p.Answers (.dread d)) (h : Talking fd (p.bytes ++ rest) w) : ∃ v as,
    (ps2netfsReqDread d).run w = ⟨some (p.retval.toInt, some (.ofReply v.recvPacket)), v, as⟩ ∧
      v.recvPacket.slice 0 p.len.toNat = p.bytes ∧ Talking fd rest v ∧ v.os = w.os ∧ Asks fd [.dread d] (outgoing as) := by
  obtain ⟨v, as, hcall, hm, ht, -, ho⟩ := call_run h ha
  have hret : retval (some v.recvPacket) = p.retval.toInt := by
    rw [retval, Option.elim_some, retval_of_slice hm ha.2.1]
  have hrun : (ps2netfsReqDread d).run w = ⟨some (p.retval.toInt, some (.ofReply v.recvPacket)), v, as⟩ := by
    rw [ps2netfsReqDread_eq, Prog.run_bind]
    refine (congrArg (Result.andThen · _) hcall).trans ?_
    rw [Result.andThen_mk_some, hret, Prog.run_pure, Result.after_mk, List.append_nil, Option.map_some]
  have hk := (ps2netfsReqDread d).keeps w
  rw [hrun] at hk
  have hasks := Asks.of_call ho (show outgoing [] = [] from rfl)
  rw [List.append_nil] at hasks
  exact ⟨v, as, hrun, hm, ht, hk.os, hasks⟩

theorem showEntries_shows (d : Word) (es : List Entry) {last : Reply} (ha : last.Answers (.dread d)) (hdone : last.retval.toInt ≤ 0)
    (rounds : Nat) (hr : es.length < rounds) (h : Talking fd (Directory.replies es ++ (last.bytes ++ rest)) w) : ∃ v as,
    (showEntries d rounds).run w = ⟨some (es.map fun e => .entry e.dirent), v, as⟩ ∧ Talking fd rest v ∧ v.os = w.os ∧
      Asks fd ((es.map fun _ => .dread d) ++ [.dread d]) (outgoing as) := by
  induction es generalizing rounds w with
  | nil =>
    obtain ⟨rounds, rfl⟩ : ∃ n, rounds = n + 1 := ⟨rounds - 1, by omega⟩
    obtain ⟨v, as, hrun, -, ht, hos, hasks⟩ := dread_takes d ha h
    refine ⟨v, as, ?_, ht, hos, hasks⟩
    have hpos : ¬last.retval.toInt > 0 := Int.not_lt.mpr hdone
    rw [showEntries, Prog.run_bind, hrun, Result.andThen_mk_some]
    simp only [if_neg hpos, Prog.run_pure, Result.after_mk, List.append_nil, List.map_nil]
  | cons e es ih =>
    obtain ⟨rounds, rfl⟩ : ∃ n, rounds = n + 1 := ⟨rounds - 1, by omega⟩
    rw [Directory.replies, List.flatMap_cons, List.append_assoc] at h
    obtain ⟨v, as, hrun, hm, ht, hos, hasks⟩ := dread_takes d (e.reply_answers d) h
    obtain ⟨u, bs, hloop, hu, huos, hmore⟩ := ih rounds (by rw [List.length_cons] at hr; omega) ht
    refine ⟨u, as ++ bs, ?_, hu, huos.trans hos, ?_⟩
    · have hpos : e.found.toInt > 0 := e.more
      rw [e.reply_retval, e.ofReply_reply hm] at hrun
      rw [showEntries, Prog.run_bind, hrun, Result.andThen_mk_some]
      simp only [if_pos hpos, Prog.run_bind, hloop, Result.andThen_mk_some, Prog.run_pure, Result.after_mk, List.append_nil]
      rfl
    · rw [outgoing_append, List.map_cons, List.cons_append]
      exact hasks.append hmore

theorem showDir_shows (d : Directory) (arg : List Byte) (h : Talking fd (d.stream ++ rest) w)
    (hr : d.entries.length < w.os.patience) : ∃ v as,
    (showDir arg).run w = ⟨some (0, .heading arg :: d.entries.map fun e => .entry e.dirent), v, as⟩ ∧ Talking fd rest v ∧
      Asks fd (d.requests arg) (outgoing as) := by
  simp only [Directory.stream, List.append_assoc] at h
  obtain ⟨v1, a1, hr1, t1, hos1, hk1⟩ := value_run (.dopen arg) d.opens rfl h
  obtain ⟨v2, a2, hr2, t2, hos2, hk2⟩ := showEntries_shows d.opened.retval d.entries d.ends d.done v1.os.patience (hos1 ▸ hr) t1
  obtain ⟨v3, a3, hr3, t3, -, hk3⟩ := value_run (.dclose d.opened.retval) d.closes rfl t2
  simp only [NetfsReq.run] at hr1 hr3
  have hfd : ¬d.opened.retval.toInt < 0 := Int.not_lt.mpr (Int.le_of_lt d.granted)
  refine ⟨v3, a1 ++ (a2 ++ a3), ?_, t3, ?_⟩
  · simp only [showDir, Prog.run_bind, hr1, Result.andThen_mk_some, if_neg hfd, Prog.run_get, cWord_toInt, hr2, if_pos d.granted, hr3,
      Prog.run_pure, Result.after_mk, List.nil_append, List.append_nil]
  · have hk := hk1.append (hk2.append hk3)
    rw [List.append_assoc] at hk
    simp only [outgoing_append]
    exact hk

end Listings

def bracketed (arg : Line newline) : Line newline := ⟨arg.text ++ str "]", fun h =>
  (List.mem_append.mp h).elim arg.unbroken (by decide)⟩

def unbracketed (l : Line newline) : Line newline := ⟨l.text.dropLast, fun h => l.unbroken (List.dropLast_subset _ h)⟩

theorem unbracketed_bracketed (arg : Line newline) : unbracketed (bracketed arg) = arg := by
  have h : (arg.text ++ str "]").dropLast = arg.text := List.dropLast_concat
  simp only [unbracketed, bracketed, h]

def headingField : Item Byte (Line newline) :=
  Item.tagged (str "[") ((Item.line newline).via bracketed unbracketed unbracketed_bracketed)

def readListing (s : List Byte) : Option (Line newline × List Look) :=
  (headingField.get s).bind fun r => (frames Look.field.get r.2).map fun ls => (r.1, ls)

theorem Printed.texts_entries (es : List Entry) :
    Printed.texts (es.map fun e => .entry e.dirent) = some ((es.map Entry.look).flatMap Look.field.put) := by
  induction es with
  | nil => rfl
  | cons e es ih =>
    rw [List.map_cons, Printed.texts, e.text, ih, List.map_cons, List.flatMap_cons]
    rfl

theorem readListing_texts (arg : Line newline) (es : List Entry) : ∃ text,
    Printed.texts (.heading arg.text :: es.map fun e => .entry e.dirent) = some text ∧
      readListing text = some (arg, es.map Entry.look) := by
  have hne (l : Look) : Look.field.put l ≠ [] := List.cons_ne_nil _ _
  have hput : headingField.put arg = str "[" ++ (arg.text ++ str "]\n") := by
    have h : str "]\n" = str "]" ++ [newline] := rfl
    rw [h, ← List.append_assoc arg.text]
    rfl
  refine ⟨headingField.put arg ++ (es.map Entry.look).flatMap Look.field.put, ?_, ?_⟩
  · rw [Printed.texts, Printed.texts_entries, Printed.text, hput]
    rfl
  · rw [readListing, headingField.back, Option.bind_some, Look.field.frames_put hne, Option.map_some]

section Command

variable {fd : Int} {rest : List Byte} {w : World}

/-- `ls` of a directory: the server is asked for the entries one by one, and
from what is printed the directory and all its entries can be read, in their
order. -/
theorem ls_shows (d : Directory) {arg : Line newline} (hdev : (splitFilename arg.text).1 ≠ [])
    (h : Talking fd (d.stream ++ rest) w) (hr : d.entries.length < w.os.patience) :
    ∃ v as shown text, (showList arg.text).run w = ⟨some (0, shown), v, as⟩ ∧
      (cliList arg.text).run w = ⟨some 0, v, as⟩ ∧ Talking fd rest v ∧ Asks fd (d.requests arg.text) (outgoing as) ∧
      Printed.texts shown = some text ∧ readListing text = some (arg, d.entries.map Entry.look) := by
  obtain ⟨v, as, hrun, ht, hk⟩ := showDir_shows d arg.text h hr
  obtain ⟨text, htext, hread⟩ := readListing_texts arg d.entries
  have hneg : ¬w.ps2NetfsFd < 0 := Int.not_lt.mpr (h.netfs ▸ h.nonneg)
  have hopen : reopenNetfs.run w = ⟨some (), w, []⟩ := by
    rw [reopenNetfs, Prog.run_bind, Prog.run_get, Result.andThen_mk_some, if_neg hneg]
    rfl
  have hlist : (showList arg.text).run w =
      ⟨some (0, .heading arg.text :: d.entries.map fun e => .entry e.dirent), v, as⟩ := by
    rw [showList, if_pos hdev, Prog.run_bind, hopen, Result.andThen_mk_some, Prog.run_bind, Prog.run_get, Result.andThen_mk_some,
      if_neg hneg, hrun]
    rfl
  refine ⟨v, as, _, text, hlist, ?_, ht, hk, htext, hread⟩
  rw [← showList_forgets, Prog.run_bind, hlist, Result.andThen_mk_some, Prog.run_pure, Result.after_mk, List.append_nil]

end Command

def bootElf : Entry where
  found := 1
  mode := 0x21ff
  attr := 0
  size := 1234
  times := List.replicate 18 0 ++ [59, 23, 31, 12, 0, 0]
  hisize := 0
  name := ⟨⟨str "BOOT.ELF", by decide⟩, by decide⟩
  more := by decide
  stamped := by decide
  dated := by decide
  named := by decide
  short := by decide

def savesDir : Entry where
  found := 1
  mode := 0x11ed
  attr := 0x27
  size := 0
  times := List.replicate 18 0 ++ [5, 9, 1, 2, 0, 0]
  hisize := 0
  name := ⟨⟨str "SAVES", by decide⟩, by decide⟩
  more := by decide
  stamped := by decide
  dated := by decide
  named := by decide
  short := by decide

def bootDir : Directory where
  opened := .value ps2netfsDopenRly 3
  entries := [bootElf, savesDir]
  last := .value ps2netfsDreadRly 0
  closed := .value ps2netfsDcloseRly 0
  opens := Reply.value_returns _ _
  granted := by decide
  ends := ⟨rfl, by decide, by decide⟩
  done := by decide
  closes := Reply.value_returns _ _

def mcSlash : Line newline := ⟨str "mc0:/", by decide⟩

def bootServer : World := .served { Host.refusing with patience := 3 } 7 (bootDir.stream ++ [1]) []

theorem bootDir_shown : ∃ v as shown text,
    (showList (str "mc0:/")).run bootServer = ⟨some (0, shown), v, as⟩ ∧
      (cliList (str "mc0:/")).run bootServer = ⟨some 0, v, as⟩ ∧
      Talking 7 [1] v ∧ Asks 7 (bootDir.requests (str "mc0:/")) (outgoing as) ∧
      Printed.texts shown = some text ∧ readListing text = some (mcSlash, [bootElf.look, savesDir.look]) :=
  @ls_shows 7 [1] _ bootDir mcSlash (by decide) (.served (by decide) _ _) (by decide)

example : (Printed.entry bootElf.dirent).text =
    some (str "-rwxrwxrwx 0x0000      1234 Dec 31 23:59 BOOT.ELF             \n") := by decide +kernel

end Pksh
