import LinuxApi.Kernel.Stdio
import Mathlib.Data.Int.Order.Basic

/-! The functions in `error_functions.c` that report an error and end the process. They cut a message where a
buffer is full and nowhere else, and what has been printed before stands in front of it. -/

namespace LinuxApi.ErrorFunctions

open Stdio

def ename : List String :=
  ["", "EPERM", "ENOENT", "ESRCH", "EINTR", "EIO", "ENXIO", "E2BIG", "ENOEXEC", "EBADF", "ECHILD",
    "EAGAIN/EWOULDBLOCK", "ENOMEM", "EACCES", "EFAULT", "ENOTBLK", "EBUSY", "EEXIST", "EXDEV", "ENODEV",
    "ENOTDIR", "EISDIR", "EINVAL", "ENFILE", "EMFILE", "ENOTTY", "ETXTBSY", "EFBIG", "ENOSPC", "ESPIPE",
    "EROFS", "EMLINK", "EPIPE", "EDOM", "ERANGE", "EDEADLK/EDEADLOCK", "ENAMETOOLONG", "ENOLCK",
    "ENOSYS", "ENOTEMPTY", "ELOOP", "", "ENOMSG", "EIDRM", "ECHRNG", "EL2NSYNC", "EL3HLT", "EL3RST",
    "ELNRNG", "EUNATCH", "ENOCSI", "EL2HLT", "EBADE", "EBADR", "EXFULL", "ENOANO", "EBADRQC", "EBADSLT",
    "", "EBFONT", "ENOSTR", "ENODATA", "ETIME", "ENOSR", "ENONET", "ENOPKG", "EREMOTE", "ENOLINK",
    "EADV", "ESRMNT", "ECOMM", "EPROTO", "EMULTIHOP", "EDOTDOT", "EBADMSG", "EOVERFLOW", "ENOTUNIQ",
    "EBADFD", "EREMCHG", "ELIBACC", "ELIBBAD", "ELIBSCN", "ELIBMAX", "ELIBEXEC", "EILSEQ", "ERESTART",
    "ESTRPIPE", "EUSERS", "ENOTSOCK", "EDESTADDRREQ", "EMSGSIZE", "EPROTOTYPE", "ENOPROTOOPT",
    "EPROTONOSUPPORT", "ESOCKTNOSUPPORT", "EOPNOTSUPP/ENOTSUP", "EPFNOSUPPORT", "EAFNOSUPPORT",
    "EADDRINUSE", "EADDRNOTAVAIL", "ENETDOWN", "ENETUNREACH", "ENETRESET", "ECONNABORTED", "ECONNRESET",
    "ENOBUFS", "EISCONN", "ENOTCONN", "ESHUTDOWN", "ETOOMANYREFS", "ETIMEDOUT", "ECONNREFUSED",
    "EHOSTDOWN", "EHOSTUNREACH", "EALREADY", "EINPROGRESS", "ESTALE", "EUCLEAN", "ENOTNAM", "ENAVAIL",
    "EISNAM", "EREMOTEIO", "EDQUOT", "ENOMEDIUM", "EMEDIUMTYPE", "ECANCELED", "ENOKEY", "EKEYEXPIRED",
    "EKEYREVOKED", "EKEYREJECTED", "EOWNERDEAD", "ENOTRECOVERABLE", "ERFKILL", "EHWPOISON"]

/-- `MAX_ENAME` -/
def maxEname : ℤ := 133

/-- `BUF_SIZE` -/
def bufSize : ℕ := 500

/-- What the process finds: the texts of `strerror`, the value of `EF_DUMPCORE`, and whether `abort` writes what
is left in the buffer of standard output. -/
structure Env where
  strerror : ℤ → List Char
  strerror_nul : ∀ err, nul ∉ strerror err
  dumpcore : Option (List Char)
  abortFlushes : Bool

/-- `ename[err]`, or the text for other numbers; `none` is a read outside the array. -/
def enameOf (err : ℤ) : Option String :=
  if 0 < err ∧ err ≤ maxEname then ename[err.toNat]? else some "?UNKNOWN?"

/-- The text before it goes into `errText`. -/
def errText (env : Env) (err : ℤ) (name : String) : List Char :=
  " [".toList ++ name.toList ++ " ".toList ++ env.strerror err ++ "]".toList

/-- What `outputError` prints, where `text` is what the format and its arguments make. -/
def outputText (env : Env) (useErr : Bool) (err : ℤ) (text : List Char) : Option (List Char) :=
  let userMsg := snprintf bufSize text
  let errText :=
    if useErr then (enameOf err).map fun name => snprintf bufSize (errText env err name)
    else some (snprintf bufSize ":".toList)
  errText.map fun errText =>
    snprintf bufSize ("ERROR".toList ++ errText ++ " ".toList ++ userMsg ++ "\n".toList)

/-- A process between two calls. -/
structure Process where
  output : Output
  errno : ℤ

/-- `outputError`, whose calls of stdio may change `errno`. -/
def outputError (env : Env) (useErr : Bool) (err : ℤ) (flushStdout : Bool) (text : List Char) (errno : ℤ)
    (p : Process) : Option Process :=
  (outputText env useErr err text).map fun buf =>
    ⟨(if flushStdout then p.output.flush else p.output).putsErr buf, errno⟩

/-- `errMsg` -/
def errMsg (env : Env) (text : List Char) (errno : ℤ) (p : Process) : Option Process :=
  (outputError env true p.errno true text errno p).map fun q => { q with errno := p.errno }

inductive Status where
  | exited (code : ℕ)
  | aborted
  deriving DecidableEq

/-- What a process leaves behind: the file, and how it has ended. -/
structure Ended where
  file : List Char
  status : Status

/-- `exit(EXIT_FAILURE)` -/
def exitFailure (p : Process) : Ended := ⟨p.output.text, .exited 1⟩

def terminate (env : Env) (useExit3 : Bool) (p : Process) : Ended :=
  match env.dumpcore with
  | some (_ :: _) => ⟨if env.abortFlushes then p.output.text else p.output.file, .aborted⟩
  | _ => if useExit3 then exitFailure p else ⟨p.output.file, .exited 1⟩

/-- `errExit` -/
def errExit (env : Env) (text : List Char) (p : Process) : Option Ended :=
  (outputError env true p.errno true text 0 p).map (terminate env true)

/-- `err_exit` -/
def errExitNow (env : Env) (text : List Char) (p : Process) : Option Ended :=
  (outputError env true p.errno false text 0 p).map (terminate env false)

/-- `errExitEN` -/
def errExitEN (env : Env) (errnum : ℤ) (text : List Char) (p : Process) : Option Ended :=
  (outputError env true errnum true text 0 p).map (terminate env true)

/-- `fatal` -/
def fatal (env : Env) (text : List Char) (p : Process) : Option Ended :=
  (outputError env false 0 true text 0 p).map (terminate env true)

/-- `usageErr` -/
def usageErr (text : List Char) (p : Process) : Ended :=
  exitFailure ⟨(p.output.flush.putsErr "Usage: ".toList).putsErr text, p.errno⟩

/-- `cmdLineErr` -/
def cmdLineErr (text : List Char) (p : Process) : Ended :=
  exitFailure ⟨(p.output.flush.putsErr "Command-line usage error: ".toList).putsErr text, p.errno⟩

/-! ### One message -/

/-- The whole message, as long as it is. -/
def message (env : Env) (useErr : Bool) (err : ℤ) (text : List Char) : List Char :=
  "ERROR".toList ++ ((if useErr then errText env err ((enameOf err).getD "") else ":".toList) ++
    (" ".toList ++ (cString text ++ "\n".toList)))

variable {env : Env} {p : Process}

/-- Every number has a name. -/
theorem enameOf_isSome (err : ℤ) : (enameOf err).isSome = true := by
  unfold enameOf
  split_ifs with h
  · obtain ⟨hpos, hle⟩ := h
    have hlength : ename.length = 134 := rfl
    have hlt : err.toNat < ename.length := by
      unfold maxEname at hle
      omega
    rw [List.getElem?_eq_getElem hlt]
    rfl
  · rfl

/-- No name contains a zero. -/
theorem nul_notMem_enameOf (err : ℤ) : nul ∉ ((enameOf err).getD "").toList := by
  have htable : ∀ s ∈ ename, nul ∉ s.toList := by decide +kernel
  have hother : nul ∉ "?UNKNOWN?".toList := by decide +kernel
  have hempty : nul ∉ "".toList := by decide +kernel
  unfold enameOf
  split_ifs
  · cases hname : ename[err.toNat]? with
    | none => exact hempty
    | some s => exact htable s (List.mem_of_getElem? hname)
  · exact hother

theorem nul_notMem_errText (env : Env) (err : ℤ) : nul ∉ errText env err ((enameOf err).getD "") := by
  have hopen : nul ∉ " [".toList := by decide +kernel
  have hblank : nul ∉ " ".toList := by decide +kernel
  have hclose : nul ∉ "]".toList := by decide +kernel
  have hname := nul_notMem_enameOf err
  have hstrerror := env.strerror_nul err
  simp only [errText, List.mem_append, not_or]
  exact ⟨⟨⟨⟨hopen, hname⟩, hblank⟩, hstrerror⟩, hclose⟩

/-- Two parts that are cut to the length of the whole. -/
theorem snprintf_parts {a e b u c : List Char} (ha : nul ∉ a) (he : nul ∉ e) (hb : nul ∉ b) (hc : nul ∉ c) (size : ℕ) :
    snprintf size (a ++ snprintf size e ++ b ++ snprintf size u ++ c) =
      (a ++ (e ++ (b ++ (cString u ++ c)))).take (size - 1) := by
  have hu := nul_notMem_cString u
  have hcut : nul ∉ a ++ e.take (size - 1) ++ b ++ (cString u).take (size - 1) ++ c := by
    simp only [List.mem_append, not_or]
    exact ⟨⟨⟨⟨ha, fun h => he (List.mem_of_mem_take h)⟩, hb⟩, fun h => hu (List.mem_of_mem_take h)⟩, hc⟩
  rw [snprintf_eq size e, snprintf_eq size u, cString_of_notMem he, snprintf_eq, cString_of_notMem hcut]
  calc (a ++ e.take (size - 1) ++ b ++ (cString u).take (size - 1) ++ c).take (size - 1)
    _ = ((a ++ e.take (size - 1) ++ b) ++ ((cString u).take (size - 1) ++ c)).take (size - 1) := by
      rw [List.append_assoc]
    _ = ((a ++ e.take (size - 1) ++ b) ++ (cString u ++ c)).take (size - 1) := take_append_take _ _ _ _
    _ = (a ++ (e.take (size - 1) ++ (b ++ (cString u ++ c)))).take (size - 1) := by
      simp only [List.append_assoc]
    _ = (a ++ (e ++ (b ++ (cString u ++ c)))).take (size - 1) := take_append_take _ _ _ _

theorem outputText_eq (env : Env) (useErr : Bool) (err : ℤ) (text : List Char) :
    outputText env useErr err text = some ((message env useErr err text).take (bufSize - 1)) := by
  have herror : nul ∉ "ERROR".toList := by decide +kernel
  have hblank : nul ∉ " ".toList := by decide +kernel
  have hline : nul ∉ "\n".toList := by decide +kernel
  have hcolon : nul ∉ ":".toList := by decide +kernel
  unfold outputText message
  cases useErr with
  | true =>
    obtain ⟨name, hname⟩ := Option.isSome_iff_exists.mp (enameOf_isSome err)
    have herr := nul_notMem_errText env err
    rw [hname, Option.getD_some] at herr
    simp only [if_true, hname, Option.map_some, Option.getD_some]
    rw [snprintf_parts herror herr hblank hline]
  | false =>
    simp only [Bool.false_eq_true, if_false, Option.map_some]
    rw [snprintf_parts herror hcolon hblank hline]

/-- The name of an error is never read outside the table, whatever its number; the three buffers cut a message to
what fits into the last one, and no further; and it is whole exactly if it has less than `BUF_SIZE` characters. -/
theorem message_cut_once (env : Env) (useErr : Bool) (err : ℤ) (text : List Char) :
    outputText env useErr err text = some ((message env useErr err text).take (bufSize - 1)) ∧
      (outputText env useErr err text = some (message env useErr err text) ↔
        (message env useErr err text).length < bufSize) := by
  have heq := outputText_eq env useErr err text
  refine ⟨heq, ?_⟩
  rw [heq, Option.some.injEq, List.take_eq_self_iff]
  unfold bufSize
  omega

/-! ### The messages among what is printed -/

/-- A call before the last one: a `printf`, after which `k` characters of the buffer are written, any call that
fails, or `errMsg`. Each may change `errno`. -/
inductive Call where
  | printf (text : List Char) (k : ℕ) (errno : ℤ)
  | fails (errno : ℤ)
  | errMsg (text : List Char) (errno : ℤ)

def Call.run (env : Env) (p : Process) : Call → Option Process
  | .printf text k errno => some ⟨p.output.puts k text, errno⟩
  | .fails errno => some { p with errno }
  | .errMsg text errno => ErrorFunctions.errMsg env text errno p

def runCalls (env : Env) : Process → List Call → Option Process
  | p, [] => some p
  | p, c :: cs => (c.run env p).bind fun q => runCalls env q cs

/-- The functions that end a process, but `err_exit`. -/
inductive Last where
  | errExit (text : List Char)
  | errExitEN (errnum : ℤ) (text : List Char)
  | fatal (text : List Char)
  | usageErr (text : List Char)
  | cmdLineErr (text : List Char)

def Last.run (env : Env) (p : Process) : Last → Option Ended
  | .errExit text => ErrorFunctions.errExit env text p
  | .errExitEN errnum text => ErrorFunctions.errExitEN env errnum text p
  | .fatal text => ErrorFunctions.fatal env text p
  | .usageErr text => some (ErrorFunctions.usageErr text p)
  | .cmdLineErr text => some (ErrorFunctions.cmdLineErr text p)

/-- A message as it is printed. -/
def cut (env : Env) (useErr : Bool) (err : ℤ) (text : List Char) : List Char :=
  (message env useErr err text).take (bufSize - 1)

/-- The `errno` that a call leaves; `errMsg` leaves it as it was. -/
def Call.errno (err : ℤ) : Call → ℤ
  | .printf _ _ errno | .fails errno => errno
  | .errMsg _ _ => err

def errnoAfter (err : ℤ) (cs : List Call) : ℤ := cs.foldl Call.errno err

def Call.text (env : Env) (err : ℤ) : Call → List Char
  | .printf text _ _ => text
  | .fails _ => []
  | .errMsg text _ => cut env true err text

/-- What some calls print, in their order. -/
def printed (env : Env) : ℤ → List Call → List Char
  | _, [] => []
  | err, c :: cs => c.text env err ++ printed env (c.errno err) cs

def Last.text (env : Env) (err : ℤ) : Last → List Char
  | .errExit text => cut env true err text
  | .errExitEN errnum text => cut env true errnum text
  | .fatal text => cut env false 0 text
  | .usageErr text => "Usage: ".toList ++ text
  | .cmdLineErr text => "Command-line usage error: ".toList ++ text

/-- `EF_DUMPCORE` is set to more than an empty text. -/
def Env.aborts (env : Env) : Bool :=
  match env.dumpcore with
  | some (_ :: _) => true
  | _ => false

def Last.status (env : Env) : Last → Status
  | .usageErr _ | .cmdLineErr _ => .exited 1
  | _ => if env.aborts then .aborted else .exited 1

theorem printed_append (env : Env) (err : ℤ) (cs ds : List Call) :
    printed env err (cs ++ ds) = printed env err cs ++ printed env (errnoAfter err cs) ds := by
  induction cs generalizing err with
  | nil => rfl
  | cons c cs ih =>
    rw [List.cons_append, printed, printed, ih, List.append_assoc]
    rfl

theorem errnoAfter_append (err : ℤ) (cs ds : List Call) :
    errnoAfter err (cs ++ ds) = errnoAfter (errnoAfter err cs) ds :=
  List.foldl_append

/-- What a call prints comes behind all that was printed before it. -/
theorem call_spec (env : Env) (p : Process) (c : Call) : ∃ q, c.run env p = some q ∧
    q.output.text = p.output.text ++ c.text env p.errno ∧ q.errno = c.errno p.errno := by
  cases c with
  | printf text k errno => exact ⟨_, rfl, p.output.text_puts k text, rfl⟩
  | fails errno => exact ⟨_, rfl, (List.append_nil _).symm, rfl⟩
  | errMsg text errno =>
    have htext := outputText_eq env true p.errno text
    refine ⟨⟨p.output.flush.putsErr (cut env true p.errno text), p.errno⟩, ?_, ?_, rfl⟩
    · simp only [Call.run, errMsg, outputError, htext, Option.map_some, if_true]
      rfl
    · exact p.output.text_putsErr_flush _

theorem runCalls_spec (env : Env) (p : Process) (cs : List Call) : ∃ q, runCalls env p cs = some q ∧
    q.output.text = p.output.text ++ printed env p.errno cs ∧ q.errno = errnoAfter p.errno cs := by
  induction cs generalizing p with
  | nil => exact ⟨p, rfl, (List.append_nil _).symm, rfl⟩
  | cons c cs ih =>
    obtain ⟨r, hr, htext, herrno⟩ := call_spec env p c
    obtain ⟨q, hq, hqtext, hqerrno⟩ := ih r
    refine ⟨q, ?_, ?_, ?_⟩
    · rw [runCalls, hr, Option.bind_some, hq]
    · rw [hqtext, htext, herrno, List.append_assoc]
      rfl
    · rw [hqerrno, herrno]
      rfl

/-- The end of a process whose buffer has been written. -/
theorem terminate_flushed (h : p.output.buffer = []) (useExit3 : Bool) :
    terminate env useExit3 p = ⟨p.output.file, if env.aborts then .aborted else .exited 1⟩ := by
  have htext : p.output.text = p.output.file := by rw [Output.text, h, List.append_nil]
  unfold terminate Env.aborts
  split
  · simp [htext]
  · cases useExit3 <;> simp [exitFailure, htext]

/-- The last message comes behind all that was printed. -/
theorem last_spec (env : Env) (p : Process) (last : Last) :
    last.run env p = some ⟨p.output.text ++ last.text env p.errno, last.status env⟩ := by
  cases last with
  | errExit text =>
    simp only [Last.run, errExit, outputError, outputText_eq, Option.map_some, if_true]
    rw [terminate_flushed rfl]
    rfl
  | errExitEN errnum text =>
    simp only [Last.run, errExitEN, outputError, outputText_eq, Option.map_some, if_true]
    rw [terminate_flushed rfl]
    rfl
  | fatal text =>
    simp only [Last.run, fatal, outputError, outputText_eq, Option.map_some, if_true]
    rw [terminate_flushed rfl]
    rfl
  | usageErr text =>
    show some (exitFailure _) = _
    rw [Output.putsErr_putsErr, exitFailure, Output.text_putsErr_flush]
    rfl
  | cmdLineErr text =>
    show some (exitFailure _) = _
    rw [Output.putsErr_putsErr, exitFailure, Output.text_putsErr_flush]
    rfl

/-- Whatever a process prints, however much of it still waits in the buffer and whatever fails: when `errExit`,
`errExitEN`, `fatal`, `usageErr` or `cmdLineErr` has ended it, everything is in the file in the order of the calls, the
messages of `errMsg` among it and the last message behind it; and `errMsg` has kept the error that comes next. -/
theorem messages_in_order (env : Env) (p : Process) (cs : List Call) (last : Last) :
    (runCalls env p cs).bind (last.run env) =
      some ⟨p.output.text ++ printed env p.errno cs ++ last.text env (errnoAfter p.errno cs), last.status env⟩ := by
  obtain ⟨q, hq, htext, herrno⟩ := runCalls_spec env p cs
  rw [hq, Option.bind_some, last_spec, htext, herrno]

/-! ### A child that fails -/

/-- A process calls `fork` at `p` and goes on with `cs`; then the child, which has a copy of the buffer, ends; and
the process comes to its end with `ds` and `last`. Both write to the same file. -/
def withChild (env : Env) (p : Process) (cs : List Call) (child : Process → Option Ended) (ds : List Call)
    (last : Last) : Option Ended :=
  (runCalls env p cs).bind fun q =>
    (child { p with output := ⟨q.output.file, p.output.buffer⟩ }).bind fun c =>
      (runCalls env { q with output := ⟨c.file, q.output.buffer⟩ } ds).bind fun r => last.run env r

/-- What an ended child adds to the file stands somewhere in what the process prints. -/
theorem withChild_eq (env : Env) (p : Process) (cs ds : List Call) (last : Last) {child : Process → Option Ended}
    {added : List Char} (hchild : ∀ file, ∃ status,
      child { p with output := ⟨file, p.output.buffer⟩ } = some ⟨file ++ added, status⟩) :
    ∃ a b, p.output.text ++ printed env p.errno (cs ++ ds) = a ++ b ∧
      withChild env p cs child ds last = some ⟨a ++ added ++ b ++ last.text env (errnoAfter p.errno (cs ++ ds)),
        last.status env⟩ := by
  obtain ⟨q, hq, htext, herrno⟩ := runCalls_spec env p cs
  obtain ⟨status, hc⟩ := hchild q.output.file
  have hend := messages_in_order env ⟨⟨q.output.file ++ added, q.output.buffer⟩, q.errno⟩ ds last
  refine ⟨q.output.file, q.output.buffer ++ printed env q.errno ds, ?_, ?_⟩
  · rw [printed_append, ← List.append_assoc, ← htext, ← herrno, Output.text, List.append_assoc]
  · simp only [withChild, hq, Option.bind_some, hc]
    rw [hend, errnoAfter_append, ← herrno]
    simp [Output.text]

/-- Wherever a child ends: what its process has printed is in the file once and in its order, with the message of the
child somewhere in it, if the child ends by `err_exit` and no `abort` writes its buffer; if it ends by `errExit`, what
waits in the buffer at the `fork` is in the file twice, the second time in front of the message. -/
theorem child_message (env : Env) (p : Process) (cs ds : List Call) (last : Last) (text : List Char) :
    (∃ a b, p.output.text ++ printed env p.errno (cs ++ ds) = a ++ b ∧
      withChild env p cs (errExitNow env text) ds last =
        some ⟨a ++ (cut env true p.errno text ++ if env.aborts && env.abortFlushes then p.output.buffer else []) ++ b ++
          last.text env (errnoAfter p.errno (cs ++ ds)), last.status env⟩) ∧
      ∃ a b, p.output.text ++ printed env p.errno (cs ++ ds) = a ++ b ∧
        withChild env p cs (errExit env text) ds last =
          some ⟨a ++ (p.output.buffer ++ cut env true p.errno text) ++ b ++
            last.text env (errnoAfter p.errno (cs ++ ds)), last.status env⟩ := by
  constructor
  · apply withChild_eq
    intro file
    refine ⟨if env.aborts then .aborted else .exited 1, ?_⟩
    simp only [errExitNow, outputError, outputText_eq, Option.map_some, Option.some.injEq]
    unfold terminate Env.aborts
    split
    · cases env.abortFlushes with
      | true => simp [Output.text, cut]
      | false => simp [cut]
    · simp [cut]
  · apply withChild_eq
    intro file
    have hend := last_spec env { p with output := ⟨file, p.output.buffer⟩ } (.errExit text)
    rw [Output.text, List.append_assoc] at hend
    exact ⟨_, hend⟩

end LinuxApi.ErrorFunctions
