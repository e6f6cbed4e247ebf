/-!
# Usage texts
-/
namespace TapeMachine.CommandLine.Usage

/-- Lines with an empty one at their end. -/
def paragraph (lines : List String) : String :=
  String.join (lines.map fun line => line ++ "\n") ++ "\n"

def top (program : String) : String :=
  paragraph
    ["Usage:",
      s!"  {program} <SCRIPT>                          # Run the Brainfuck program in SCRIPT",
      s!"  {program}                                   # Start a REPL (bare mode when stdin is piped)",
      s!"  {program} run  [OPTIONS] \"<code>\"           # Run Brainfuck code (args are concatenated)",
      s!"  {program} run  [OPTIONS] --file <PATH>      # Run Brainfuck code loaded from file",
      s!"  {program} repl [--bare|--editor]            # Start a Brainfuck REPL (read-eval-print loop)",
      "",
      s!"Run \"{program} <subcommand> --help\" for more info."]

def run (program : String) : String :=
  paragraph
    ["Usage:",
      s!"  {program} run [OPTIONS] \"<code>\"",
      s!"  {program} run [OPTIONS] --file <PATH>",
      "",
      "Options:",
      "  --file,  -f <PATH>       Read Brainfuck code from PATH instead of positional \"<code>\"",
      "  --input, -i <TEXT>       Characters consumed by `,` (default: piped stdin)",
      "  --memory-size, -m <N>    Initial tape cells (default 256; the tape grows to the right)",
      "  --max-steps <N>          Abort after N steps",
      "  --timeout <MS>           Abort after MS milliseconds (default 2000)",
      "  --debug, -d              Print a step-by-step table of operations",
      "  --dump                   Print the final tape and pointers to stderr",
      "  --help,  -h              Show this help",
      "",
      "Notes:",
      "- Characters outside of Brainfuck's ><+-.,[] are comments and are ignored.",
      "- Input (`,`) past the end of the input writes 0 to the current cell.",
      "- Output is printed once the program halts.",
      "- Code starting with `-` is accepted as is; `--` before the code also works.",
      "",
      "Examples:",
      "- Load Brainfuck code from a file:",
      s!"    {program} run --file ./program.bf",
      "- Feed input to `,`:",
      s!"    {program} run --input hello \",[.,]\"",
      s!"    {program} run \",[.,]\" < input.txt"]

def session (program : String) : String :=
  paragraph
    ["Usage:",
      s!"  {program} repl   # Start a Brainfuck REPL (read-eval-print loop)",
      "",
      "Options:",
      "  --help,   -h        Show this help",
      "  --bare              Force non-interactive bare mode",
      "  --editor            Force interactive editor mode (errors if stdin is not a TTY)",
      "",
      "Description:",
      "  Starts a REPL where each entered line is run as a Brainfuck program.",
      "",
      "Meta commands (line starts with \":\")",
      "  :exit            Exit immediately (code 0)",
      "  :help            Show the meta command list",
      "",
      "Notes:",
      "    - Non-Brainfuck characters are comments; lines without instructions are skipped.",
      "    - Each execution starts with a fresh tape and pointer; `,` reads 0.",
      "    - Ctrl+C or Ctrl+D exits the REPL.",
      "    - The REPL will print a newline after each execution for readability.",
      "    - The REPL will exit after a single execution if the environment variable `BF_REPL_ONCE` is set to `1`.",
      "    - Mode selection:",
      "        * Flags: --bare|--editor override environment and auto-detection.",
      "        * Env: BF_REPL_MODE=bare|editor overrides auto-detection.",
      "        * Auto-detect: if stdin is a TTY, starts in interactive editor mode; otherwise, bare mode.",
      "        * Banners suppressed if stderr is not a TTY."]

end TapeMachine.CommandLine.Usage
