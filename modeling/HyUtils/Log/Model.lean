import HyUtils.Foundation.Decimal
import HyUtils.Foundation.Snprintf
import HyUtils.Str.CopyRight

/-!
# The log

`src/src/hy_log.c`. `HyLogWrite` clears the buffer of the log and fills it piece by piece: a colour
prefix, a header, the message, and a colour reset. Each piece is appended by `snprintf` at `ret`,
which adds up what the calls return. A write that leaves the buffer has no result.

Strings are the bytes before their terminator. The arguments of a format are given as the text that
`vsnprintf` makes of them.

## Main definitions

* `HyLogSaveConfig`, `LogContext`: `HyLogSaveConfig_t` and `_log_context_t`
* `hyLogCreate`, `hyLogWrite`: the functions of the module
-/

namespace HyUtils.Log

open Region Str Decimal Snprintf

/-- `HyLogLevel_t`. -/
inductive HyLogLevel
  | fatal
  | error
  | warn
  | info
  | debug
  | trace
  deriving DecidableEq

/-- The value of a level. -/
def HyLogLevel.toInt32 : HyLogLevel → Int32
  | .fatal => 0
  | .error => 1
  | .warn => 2
  | .info => 3
  | .debug => 4
  | .trace => 5

/-- `HyLogSaveConfig_t`. -/
structure HyLogSaveConfig where
  level : Int32
  bufLen : UInt64
  colorOutput : Int32

/-- `_log_context_t`, with a buffer of `buf_len` bytes. -/
structure LogContext where
  saveConfig : HyLogSaveConfig
  buf : List UInt8
  length_buf : buf.length = saveConfig.bufLen.toNat

/-- `HyLogCreate`; the flag says whether the context is allocated, and `buf` is what the allocator
answers for the buffer. -/
def hyLogCreate (saveConfig : HyLogSaveConfig) (contextOk : Bool)
    (buf : Option { buf : List UInt8 // buf.length = saveConfig.bufLen.toNat }) :
    Option LogContext :=
  if contextOk then buf.map fun buf => ⟨saveConfig, buf.1, buf.2⟩ else none

/-! ## Texts -/

/-- `PRINT_FONT_RED`. -/
abbrev printFontRed : List UInt8 := [27, 91, 51, 49, 109]

/-- `PRINT_FONT_GRE`. -/
abbrev printFontGre : List UInt8 := [27, 91, 51, 50, 109]

/-- `PRINT_ATTR_RESET`. -/
abbrev printAttrReset : List UInt8 := [27, 91, 48, 109]

/-- The table `color`: the letter of a level and its colour. -/
def color : HyLogLevel → UInt8 × List UInt8
  | .fatal => (70, printFontRed)
  | .error => (69, printFontRed)
  | .warn => (87, printFontGre)
  | .info => (73, [])
  | .debug => (68, [])
  | .trace => (84, [])

/-- The text of `"%s[%s]"`. -/
def colorPrefix (level : HyLogLevel) : List UInt8 := (color level).2 ++ [91, (color level).1, 93]

/-- The text of `"%" PRId32`; the number is passed as unsigned. -/
def prId32 (n : UInt32) : List UInt8 :=
  match n.toInt32.toInt with
  | .ofNat 0 => [48]
  | .ofNat n => decimal n
  | .negSucc n => 45 :: decimal (n + 1)

/-- The text of `"[%s:%" PRId32 "][%s] "`. -/
def header (shortFile : List UInt8) (line : UInt32) (func : List UInt8) : List UInt8 :=
  91 :: (shortFile ++ 58 :: (prId32 line ++ 93 :: 91 :: (func ++ [93, 32])))

/-- `_SHORT_FILE_LEN_MAX`. -/
abbrev shortFileLenMax : UInt64 := 32

/-- The string at the start of a region. -/
def string (r : List UInt8) : Option (List UInt8) := (strlen r 0).map (r.take ·)

/-! ## The module -/

/-- `_output_set_color`. -/
def outputSetColor (bufLen : UInt64) (level : HyLogLevel) (s : List UInt8 × UInt32) :
    Option (List UInt8 × UInt32) := appendTo bufLen s (colorPrefix level)

/-- `_output_reset_color`. -/
def outputResetColor (bufLen : UInt64) (s : List UInt8 × UInt32) : Option (List UInt8 × UInt32) :=
  appendTo bufLen s printAttrReset

/-- `HyLogWrite`, with the buffer afterwards and what is printed. The file name stands behind some
byte `before`. -/
def hyLogWrite (context : LogContext) (level : HyLogLevel) (before : UInt8) (file : List UInt8)
    (func : List UInt8) (line : UInt32) (message : List UInt8) :
    Option (List UInt8 × List UInt8) :=
  if context.saveConfig.level > level.toInt32 then do
    let bufLen := context.saveConfig.bufLen
    let buf ← memset context.buf 0 0 bufLen.toNat
    let s ← if context.saveConfig.colorOutput ≠ 0 then outputSetColor bufLen level (buf, 0)
      else some (buf, 0)
    let dst ← hyStrCopyRight2 (before :: (file ++ [0])) 1
      (List.replicate shortFileLenMax.toNat 0) 0 shortFileLenMax 47 92
    let shortFile ← string dst
    let s ← appendTo bufLen s (header shortFile line func)
    let s ← appendTo bufLen s message
    let s ← if context.saveConfig.colorOutput ≠ 0 then outputResetColor bufLen s else some s
    let printed ← string s.1
    return (s.1, printed)
  else some (context.buf, [])

end HyUtils.Log
