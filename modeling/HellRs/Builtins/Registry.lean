import Mathlib

/-! # The builtin registry

The rows of `executable` in the order of `PUBLIC_NAMES` and `INTERNAL_NAMES`, so that a builtin
identifier is a position of the registry. Every registered name is executable. A row holds the
scheme text, the arity, the demand on each argument and the name of the implementation.
-/

namespace HellRs.Builtins

abbrev BuiltinId := ℕ

inductive Demand where
  | lazy
  | whnf
  | deep
  | onIoExecution
  | conditional
deriving DecidableEq, Repr

inductive TypeClass where
  | Show
  | Eq
  | Ord
  | Monad
  | Functor
  | Applicative
  | Alternative
  | Monoid
  | Semigroup
  | FoldCase
deriving DecidableEq, Repr

structure BuiltinSpec where
  name : String
  scheme : String
  arity : ℕ
  demand : List Demand
  implementation : String
deriving DecidableEq, Repr

/-- `List.all` to `List.unfoldr`. -/
def firstRows : List BuiltinSpec := [
  ⟨"List.all", "forall a. (a -> Bool) -> [a] -> Bool", 2, [.lazy, .whnf], "list_all"⟩,
  ⟨"List.and", "[Bool] -> Bool", 1, [.whnf], "list_and"⟩,
  ⟨"List.any", "forall a. (a -> Bool) -> [a] -> Bool", 2, [.lazy, .whnf], "list_any"⟩,
  ⟨"List.break", "forall a. (a -> Bool) -> [a] -> ([a], [a])", 2, [.lazy, .whnf], "list_break"⟩,
  ⟨"List.concat", "forall a. [[a]] -> [a]", 1, [.whnf], "list_concat"⟩,
  ⟨"List.concatMap", "forall a b. (a -> [b]) -> [a] -> [b]", 2, [.lazy, .whnf], "list_concat_map"⟩,
  ⟨"List.cons", "forall a. a -> [a] -> [a]", 2, [.lazy, .lazy], "list_cons"⟩,
  ⟨"List.cycle", "forall a. [a] -> [a]", 1, [.whnf], "list_cycle"⟩,
  ⟨"List.deleteBy",
    "forall a. (a -> a -> Bool) -> a -> [a] -> [a]",
    3, [.lazy, .lazy, .whnf], "list_delete_by"⟩,
  ⟨"List.drop", "forall a. Int -> [a] -> [a]", 2, [.whnf, .whnf], "list_drop"⟩,
  ⟨"List.dropWhile", "forall a. (a -> Bool) -> [a] -> [a]", 2, [.lazy, .whnf], "list_drop_while"⟩,
  ⟨"List.dropWhileEnd", "forall a. (a -> Bool) -> [a] -> [a]", 2, [.lazy, .whnf], "list_drop_while_end"⟩,
  ⟨"List.elem", "forall a. Eq a => a -> [a] -> Bool", 2, [.lazy, .whnf], "list_elem"⟩,
  ⟨"List.elemIndex", "forall a. Eq a => a -> [a] -> Maybe Int", 2, [.lazy, .whnf], "list_elem_index"⟩,
  ⟨"List.elemIndices", "forall a. Eq a => a -> [a] -> [Int]", 2, [.lazy, .whnf], "list_elem_indices"⟩,
  ⟨"List.filter", "forall a. (a -> Bool) -> [a] -> [a]", 2, [.lazy, .whnf], "list_filter"⟩,
  ⟨"List.find", "forall a. (a -> Bool) -> [a] -> Maybe a", 2, [.lazy, .whnf], "list_find"⟩,
  ⟨"List.findIndex", "forall a. (a -> Bool) -> [a] -> Maybe Int", 2, [.lazy, .whnf], "list_find_index"⟩,
  ⟨"List.findIndices", "forall a. (a -> Bool) -> [a] -> [Int]", 2, [.lazy, .whnf], "list_find_indices"⟩,
  ⟨"List.foldl'",
    "forall a b. (b -> a -> b) -> b -> [a] -> b",
    3, [.lazy, .lazy, .whnf], "list_foldl_strict"⟩,
  ⟨"List.foldr", "forall a b. (a -> b -> b) -> b -> [a] -> b", 3, [.lazy, .lazy, .whnf], "list_foldr"⟩,
  ⟨"List.group", "forall a. Eq a => [a] -> [[a]]", 1, [.whnf], "list_group"⟩,
  ⟨"List.groupBy", "forall a. (a -> a -> Bool) -> [a] -> [[a]]", 2, [.lazy, .whnf], "list_group_by"⟩,
  ⟨"List.inits", "forall a. [a] -> [[a]]", 1, [.whnf], "list_inits"⟩,
  ⟨"List.intercalate", "forall a. [a] -> [[a]] -> [a]", 2, [.whnf, .whnf], "list_intercalate"⟩,
  ⟨"List.intersperse", "forall a. a -> [a] -> [a]", 2, [.lazy, .whnf], "list_intersperse"⟩,
  ⟨"List.isInfixOf", "forall a. Eq a => [a] -> [a] -> Bool", 2, [.lazy, .lazy], "list_is_infix_of"⟩,
  ⟨"List.isPrefixOf", "forall a. Eq a => [a] -> [a] -> Bool", 2, [.lazy, .lazy], "list_is_prefix_of"⟩,
  ⟨"List.isSubsequenceOf",
    "forall a. Eq a => [a] -> [a] -> Bool",
    2, [.lazy, .lazy], "list_is_subsequence_of"⟩,
  ⟨"List.isSuffixOf", "forall a. Eq a => [a] -> [a] -> Bool", 2, [.lazy, .lazy], "list_is_suffix_of"⟩,
  ⟨"List.iterate'", "forall a. (a -> a) -> a -> [a]", 2, [.lazy, .lazy], "list_iterate"⟩,
  ⟨"List.length", "forall a. [a] -> Int", 1, [.whnf], "list_length"⟩,
  ⟨"List.lookup", "forall a b. Eq a => a -> [(a, b)] -> Maybe b", 2, [.lazy, .whnf], "list_lookup"⟩,
  ⟨"List.map", "forall a b. (a -> b) -> [a] -> [b]", 2, [.lazy, .lazy], "list_map"⟩,
  ⟨"List.mapAccumL",
    "forall acc a b. (acc -> a -> (acc, b)) -> acc -> [a] -> (acc, [b])",
    3, [.lazy, .lazy, .whnf], "list_map_accum_l_compat"⟩,
  ⟨"List.mapAccumR",
    "forall acc a b. (acc -> a -> (acc, b)) -> acc -> [a] -> (acc, [b])",
    3, [.lazy, .lazy, .whnf], "list_map_accum_l_compat"⟩,
  ⟨"List.nil", "forall a. [a]", 0, [], "list_nil"⟩,
  ⟨"List.notElem", "forall a. Eq a => a -> [a] -> Bool", 2, [.lazy, .whnf], "list_not_elem"⟩,
  ⟨"List.nubOrd", "forall a. Ord a => [a] -> [a]", 1, [.whnf], "list_nub_ord"⟩,
  ⟨"List.null", "forall a. [a] -> Bool", 1, [.whnf], "list_null"⟩,
  ⟨"List.or", "[Bool] -> Bool", 1, [.whnf], "list_or"⟩,
  ⟨"List.partition", "forall a. (a -> Bool) -> [a] -> ([a], [a])", 2, [.lazy, .whnf], "list_partition"⟩,
  ⟨"List.permutations", "forall a. [a] -> [[a]]", 1, [.lazy], "list_permutations"⟩,
  ⟨"List.repeat", "forall a. a -> [a]", 1, [.lazy], "list_repeat"⟩,
  ⟨"List.reverse", "forall a. [a] -> [a]", 1, [.whnf], "list_reverse"⟩,
  ⟨"List.scanl'",
    "forall a b. (b -> a -> b) -> b -> [a] -> [b]",
    3, [.lazy, .lazy, .whnf], "list_scanl_strict"⟩,
  ⟨"List.scanr", "forall a b. (a -> b -> b) -> b -> [a] -> [b]", 3, [.lazy, .lazy, .whnf], "list_scanr"⟩,
  ⟨"List.sort", "forall a. Ord a => [a] -> [a]", 1, [.whnf], "list_sort"⟩,
  ⟨"List.sortOn", "forall a b. Ord b => (a -> b) -> [a] -> [a]", 2, [.lazy, .whnf], "list_sort_on"⟩,
  ⟨"List.span", "forall a. (a -> Bool) -> [a] -> ([a], [a])", 2, [.lazy, .whnf], "list_span"⟩,
  ⟨"List.splitAt", "forall a. Int -> [a] -> ([a], [a])", 2, [.whnf, .whnf], "list_split_at"⟩,
  ⟨"List.subsequences", "forall a. [a] -> [[a]]", 1, [.lazy], "list_subsequences"⟩,
  ⟨"List.tails", "forall a. [a] -> [[a]]", 1, [.whnf], "list_tails"⟩,
  ⟨"List.take", "forall a. Int -> [a] -> [a]", 2, [.whnf, .lazy], "list_take"⟩,
  ⟨"List.takeWhile", "forall a. (a -> Bool) -> [a] -> [a]", 2, [.lazy, .whnf], "list_take_while"⟩,
  ⟨"List.transpose", "forall a. [[a]] -> [[a]]", 1, [.whnf], "list_transpose"⟩,
  ⟨"List.uncons", "forall a. [a] -> Maybe (a, [a])", 1, [.whnf], "list_uncons"⟩,
  ⟨"List.unfoldr", "forall a b. (b -> Maybe (a, b)) -> b -> [a]", 2, [.lazy, .lazy], "list_unfoldr"⟩]

/-- `List.zip` to `IO.openFile`. -/
def secondRows : List BuiltinSpec := [
  ⟨"List.zip", "forall a b. [a] -> [b] -> [(a, b)]", 2, [.lazy, .lazy], "list_zip"⟩,
  ⟨"List.zipWith",
    "forall a b c. (a -> b -> c) -> [a] -> [b] -> [c]",
    3, [.lazy, .lazy, .lazy], "list_zip_with"⟩,
  ⟨"Text.all", "(Char -> Bool) -> Text -> Bool", 2, [.lazy, .lazy], "text_all"⟩,
  ⟨"Text.any", "(Char -> Bool) -> Text -> Bool", 2, [.lazy, .lazy], "text_any"⟩,
  ⟨"Text.appendFile", "Text -> Text -> IO ()", 2, [.onIoExecution, .onIoExecution], "text_append_file"⟩,
  ⟨"Text.breakOn", "Text -> Text -> (Text, Text)", 2, [.whnf, .whnf], "text_break_on"⟩,
  ⟨"Text.concat", "[Text] -> Text", 1, [.whnf], "text_concat"⟩,
  ⟨"Text.decodeUtf8", "ByteString -> Text", 1, [.whnf], "text_decode_utf8"⟩,
  ⟨"Text.drop", "Int -> Text -> Text", 2, [.whnf, .whnf], "text_drop"⟩,
  ⟨"Text.dropEnd", "Int -> Text -> Text", 2, [.whnf, .whnf], "text_drop_end"⟩,
  ⟨"Text.encodeUtf8", "Text -> ByteString", 1, [.whnf], "text_encode_utf8"⟩,
  ⟨"Text.eq", "Text -> Text -> Bool", 2, [.whnf, .whnf], "text_eq"⟩,
  ⟨"Text.filter", "(Char -> Bool) -> Text -> Text", 2, [.lazy, .whnf], "text_filter"⟩,
  ⟨"Text.getContents", "IO Text", 0, [], "text_get_contents"⟩,
  ⟨"Text.getLine", "IO Text", 0, [], "text_get_line"⟩,
  ⟨"Text.hPutStr", "Handle -> Text -> IO ()", 2, [.onIoExecution, .onIoExecution], "text_h_put_str"⟩,
  ⟨"Text.interact", "(Text -> Text) -> IO ()", 1, [.lazy], "text_interact"⟩,
  ⟨"Text.intercalate", "Text -> [Text] -> Text", 2, [.whnf, .whnf], "text_intercalate"⟩,
  ⟨"Text.isInfixOf", "Text -> Text -> Bool", 2, [.whnf, .whnf], "text_is_infix_of"⟩,
  ⟨"Text.isPrefixOf", "Text -> Text -> Bool", 2, [.whnf, .whnf], "text_is_prefix_of"⟩,
  ⟨"Text.isSuffixOf", "Text -> Text -> Bool", 2, [.whnf, .whnf], "text_is_suffix_of"⟩,
  ⟨"Text.length", "Text -> Int", 1, [.whnf], "text_length"⟩,
  ⟨"Text.lines", "Text -> [Text]", 1, [.whnf], "text_lines"⟩,
  ⟨"Text.pack", "[Char] -> Text", 1, [.whnf], "text_pack"⟩,
  ⟨"Text.putStr", "Text -> IO ()", 1, [.onIoExecution], "text_put_str"⟩,
  ⟨"Text.putStrLn", "Text -> IO ()", 1, [.onIoExecution], "text_put_str_ln"⟩,
  ⟨"Text.readFile", "Text -> IO Text", 1, [.onIoExecution], "text_read_file"⟩,
  ⟨"Text.readProcess", "Process -> IO (ExitCode, Text, Text)", 1, [.onIoExecution], "text_read_process"⟩,
  ⟨"Text.readProcessStdout_",
    "Process -> IO Text",
    1, [.onIoExecution], "text_read_process_stdout_checked"⟩,
  ⟨"Text.readProcess_", "Process -> IO (Text, Text)", 1, [.onIoExecution], "text_read_process_checked"⟩,
  ⟨"Text.replace", "Text -> Text -> Text -> Text", 3, [.whnf, .whnf, .whnf], "text_replace"⟩,
  ⟨"Text.reverse", "Text -> Text", 1, [.whnf], "text_reverse"⟩,
  ⟨"Text.setStdin", "Text -> Process -> Process", 2, [.whnf, .whnf], "text_set_stdin"⟩,
  ⟨"Text.splitOn", "Text -> Text -> [Text]", 2, [.whnf, .whnf], "text_split_on"⟩,
  ⟨"Text.strip", "Text -> Text", 1, [.whnf], "text_strip"⟩,
  ⟨"Text.stripPrefix", "Text -> Text -> Maybe Text", 2, [.whnf, .whnf], "text_strip_prefix"⟩,
  ⟨"Text.stripSuffix", "Text -> Text -> Maybe Text", 2, [.whnf, .whnf], "text_strip_suffix"⟩,
  ⟨"Text.take", "Int -> Text -> Text", 2, [.whnf, .whnf], "text_take"⟩,
  ⟨"Text.takeEnd", "Int -> Text -> Text", 2, [.whnf, .whnf], "text_take_end"⟩,
  ⟨"Text.toLower", "Text -> Text", 1, [.whnf], "text_to_lower"⟩,
  ⟨"Text.toUpper", "Text -> Text", 1, [.whnf], "text_to_upper"⟩,
  ⟨"Text.unlines", "[Text] -> Text", 1, [.whnf], "text_unlines"⟩,
  ⟨"Text.unpack", "Text -> [Char]", 1, [.whnf], "text_unpack"⟩,
  ⟨"Text.unwords", "[Text] -> Text", 1, [.whnf], "text_unwords"⟩,
  ⟨"Text.words", "Text -> [Text]", 1, [.whnf], "text_words"⟩,
  ⟨"Text.writeFile", "Text -> Text -> IO ()", 2, [.onIoExecution, .onIoExecution], "text_write_file"⟩,
  ⟨"IO.AppendMode", "FileMode", 0, [], "io_append_mode"⟩,
  ⟨"IO.BlockBuffering", "Maybe Int -> BufferMode", 1, [.whnf], "io_block_buffering"⟩,
  ⟨"IO.LineBuffering", "BufferMode", 0, [], "io_line_buffering"⟩,
  ⟨"IO.NoBuffering", "BufferMode", 0, [], "io_no_buffering"⟩,
  ⟨"IO.ReadMode", "FileMode", 0, [], "io_read_mode"⟩,
  ⟨"IO.ReadWriteMode", "FileMode", 0, [], "io_read_write_mode"⟩,
  ⟨"IO.WriteMode", "FileMode", 0, [], "io_write_mode"⟩,
  ⟨"IO.forM_", "forall a. [a] -> (a -> IO ()) -> IO ()", 2, [.onIoExecution, .onIoExecution], "io_for_m_"⟩,
  ⟨"IO.hClose", "Handle -> IO ()", 1, [.onIoExecution], "io_h_close"⟩,
  ⟨"IO.hSetBuffering",
    "Handle -> BufferMode -> IO ()",
    2, [.onIoExecution, .onIoExecution], "io_h_set_buffering"⟩,
  ⟨"IO.mapM_", "forall a. (a -> IO ()) -> [a] -> IO ()", 2, [.onIoExecution, .onIoExecution], "io_map_m_"⟩,
  ⟨"IO.openFile", "Text -> FileMode -> IO Handle", 2, [.onIoExecution, .onIoExecution], "io_open_file"⟩]

/-- `IO.print` to `Http.responseBuilder`. -/
def thirdRows : List BuiltinSpec := [
  ⟨"IO.print", "forall a. Show a => a -> IO ()", 1, [.onIoExecution], "io_print"⟩,
  ⟨"IO.pure", "forall a. a -> IO a", 1, [.lazy], "io_pure"⟩,
  ⟨"IO.stderr", "Handle", 0, [], "io_stderr"⟩,
  ⟨"IO.stdin", "Handle", 0, [], "io_stdin"⟩,
  ⟨"IO.stdout", "Handle", 0, [], "io_stdout"⟩,
  ⟨"Map.adjust",
    "forall k v. Ord k => (v -> v) -> k -> Map k v -> Map k v",
    3, [.lazy, .lazy, .whnf], "map_adjust"⟩,
  ⟨"Map.all", "forall k v. (v -> Bool) -> Map k v -> Bool", 2, [.lazy, .whnf], "map_all"⟩,
  ⟨"Map.any", "forall k v. (v -> Bool) -> Map k v -> Bool", 2, [.lazy, .whnf], "map_any"⟩,
  ⟨"Map.delete", "forall k v. Ord k => k -> Map k v -> Map k v", 2, [.lazy, .whnf], "map_delete"⟩,
  ⟨"Map.elems", "forall k v. Map k v -> [v]", 1, [.whnf], "map_elems"⟩,
  ⟨"Map.filter", "forall k v. (v -> Bool) -> Map k v -> Map k v", 2, [.lazy, .whnf], "map_filter"⟩,
  ⟨"Map.filterWithKey",
    "forall k v. (k -> v -> Bool) -> Map k v -> Map k v",
    2, [.lazy, .whnf], "map_filter_with_key"⟩,
  ⟨"Map.fromList", "forall k v. Ord k => [(k, v)] -> Map k v", 1, [.whnf], "map_from_list"⟩,
  ⟨"Map.insert",
    "forall k v. Ord k => k -> v -> Map k v -> Map k v",
    3, [.lazy, .lazy, .whnf], "map_insert"⟩,
  ⟨"Map.insertWith",
    "forall k v. Ord k => (v -> v -> v) -> k -> v -> Map k v -> Map k v",
    4, [.lazy, .lazy, .lazy, .whnf], "map_insert_with"⟩,
  ⟨"Map.keys", "forall k v. Map k v -> [k]", 1, [.whnf], "map_keys"⟩,
  ⟨"Map.lookup", "forall k v. Ord k => k -> Map k v -> Maybe v", 2, [.lazy, .whnf], "map_lookup"⟩,
  ⟨"Map.map", "forall k a b. (a -> b) -> Map k a -> Map k b", 2, [.lazy, .whnf], "map_map"⟩,
  ⟨"Map.singleton", "forall k v. Ord k => k -> v -> Map k v", 2, [.whnf, .lazy], "map_singleton"⟩,
  ⟨"Map.size", "forall k v. Map k v -> Int", 1, [.whnf], "map_size"⟩,
  ⟨"Map.toList", "forall k v. Map k v -> [(k, v)]", 1, [.whnf], "map_to_list"⟩,
  ⟨"Map.unionWith",
    "forall k v. Ord k => (v -> v -> v) -> Map k v -> Map k v -> Map k v",
    3, [.lazy, .whnf, .whnf], "map_union_with"⟩,
  ⟨"Directory.copyFile",
    "Text -> Text -> IO ()",
    2, [.onIoExecution, .onIoExecution], "directory_copy_file"⟩,
  ⟨"Directory.createDirectory", "Text -> IO ()", 1, [.onIoExecution], "directory_create"⟩,
  ⟨"Directory.createDirectoryIfMissing",
    "Bool -> Text -> IO ()",
    2, [.onIoExecution, .onIoExecution], "directory_create_if_missing"⟩,
  ⟨"Directory.doesDirectoryExist", "Text -> IO Bool", 1, [.onIoExecution], "directory_is_directory"⟩,
  ⟨"Directory.doesFileExist", "Text -> IO Bool", 1, [.onIoExecution], "directory_is_file"⟩,
  ⟨"Directory.getCurrentDirectory", "IO Text", 0, [], "directory_get_current"⟩,
  ⟨"Directory.getFileSize", "Text -> IO Integer", 1, [.onIoExecution], "directory_file_size"⟩,
  ⟨"Directory.getHomeDirectory", "IO Text", 0, [], "directory_get_home"⟩,
  ⟨"Directory.getSymbolicLinkTarget", "Text -> IO Text", 1, [.onIoExecution], "directory_symlink_target"⟩,
  ⟨"Directory.listDirectory", "Text -> IO [Text]", 1, [.onIoExecution], "directory_list"⟩,
  ⟨"Directory.pathIsSymbolicLink", "Text -> IO Bool", 1, [.onIoExecution], "directory_is_symlink"⟩,
  ⟨"Directory.removeDirectory", "Text -> IO ()", 1, [.onIoExecution], "directory_remove"⟩,
  ⟨"Directory.removeFile", "Text -> IO ()", 1, [.onIoExecution], "directory_remove_file"⟩,
  ⟨"Directory.renameFile",
    "Text -> Text -> IO ()",
    2, [.onIoExecution, .onIoExecution], "directory_rename_file"⟩,
  ⟨"Directory.setCurrentDirectory", "Text -> IO ()", 1, [.onIoExecution], "directory_set_current"⟩,
  ⟨"Options.command",
    "forall a. Text -> Options.ParserInfo a -> Options.Mod Options.CommandFields a",
    2, [.whnf, .whnf], "options_command"⟩,
  ⟨"Options.execParser",
    "forall a. Options.ParserInfo a -> IO a",
    1, [.onIoExecution], "options_exec_parser"⟩,
  ⟨"Options.flag",
    "forall a. a -> a -> Options.Mod Options.FlagFields a -> Options.Parser a",
    3, [.lazy, .lazy, .whnf], "options_flag"⟩,
  ⟨"Options.flag'",
    "forall a. a -> Options.Mod Options.FlagFields a -> Options.Parser a",
    2, [.lazy, .whnf], "options_flag_prime"⟩,
  ⟨"Options.fullDesc", "forall a. Options.InfoMod a", 0, [], "options_full_desc"⟩,
  ⟨"Options.header", "forall a. Text -> Options.InfoMod a", 1, [.whnf], "options_header"⟩,
  ⟨"Options.helper", "forall a. Options.Parser (a -> a)", 0, [], "options_helper"⟩,
  ⟨"Options.hsubparser",
    "forall a. Options.Mod Options.CommandFields a -> Options.Parser a",
    1, [.whnf], "options_hsubparser"⟩,
  ⟨"Options.info",
    "forall a. Options.Parser a -> Options.InfoMod a -> Options.ParserInfo a",
    2, [.whnf, .whnf], "options_info"⟩,
  ⟨"Options.progDesc", "forall a. Text -> Options.InfoMod a", 1, [.whnf], "options_prog_desc"⟩,
  ⟨"Options.strArgument",
    "Options.Mod Options.ArgumentFields Text -> Options.Parser Text",
    1, [.whnf], "options_str_argument"⟩,
  ⟨"Options.strOption",
    "Options.Mod Options.OptionFields Text -> Options.Parser Text",
    1, [.whnf], "options_str_option"⟩,
  ⟨"Options.switch",
    "Options.Mod Options.FlagFields Bool -> Options.Parser Bool",
    1, [.whnf], "options_switch"⟩,
  ⟨"Http.FilePart",
    "Integer -> Integer -> Integer -> FilePart",
    3, [.whnf, .whnf, .whnf], "http_file_part"⟩,
  ⟨"Http.consumeRequestBodyStrict", "Request -> IO ByteString", 1, [.onIoExecution], "http_consume_body"⟩,
  ⟨"Http.getRequestBodyChunk", "Request -> IO ByteString", 1, [.onIoExecution], "http_get_body_chunk"⟩,
  ⟨"Http.mkStatus", "Int -> Text -> Status", 2, [.whnf, .whnf], "http_status"⟩,
  ⟨"Http.pathInfo", "Request -> [Text]", 1, [.whnf], "http_path_info"⟩,
  ⟨"Http.queryString", "Request -> [(ByteString, Maybe ByteString)]", 1, [.whnf], "http_query_string"⟩,
  ⟨"Http.requestHeaders", "Request -> [(CI ByteString, ByteString)]", 1, [.whnf], "http_request_headers"⟩,
  ⟨"Http.responseBuilder",
    "Status -> [(CI ByteString, ByteString)] -> Builder -> Response",
    3, [.lazy, .lazy, .lazy], "http_response_builder"⟩]

/-- `Http.responseFile` to `Monad.sequence`. -/
def fourthRows : List BuiltinSpec := [
  ⟨"Http.responseFile",
    "Status -> [(CI ByteString, ByteString)] -> Text -> Maybe FilePart -> Response",
    4, [.lazy, .lazy, .lazy, .lazy], "http_response_file"⟩,
  ⟨"Http.responseStream",
    "Status -> [(CI ByteString, ByteString)] -> ((Builder -> IO ()) -> IO () -> IO ()) -> Response",
    3, [.lazy, .lazy, .lazy], "http_response_stream"⟩,
  ⟨"Http.run",
    "Int -> (Request -> (Response -> IO ResponseReceived) -> IO ResponseReceived) -> IO ()",
    2, [.onIoExecution, .onIoExecution], "http_run"⟩,
  ⟨"Process.nullStream", "Handle", 0, [], "process_null_stream"⟩,
  ⟨"Process.proc", "Text -> [Text] -> Process", 2, [.whnf, .whnf], "process_proc"⟩,
  ⟨"Process.runProcess", "Process -> IO ExitCode", 1, [.onIoExecution], "process_run"⟩,
  ⟨"Process.runProcess_", "Process -> IO ()", 1, [.onIoExecution], "process_run_checked"⟩,
  ⟨"Process.setEnv", "[(Text, Text)] -> Process -> Process", 2, [.whnf, .whnf], "process_set_env"⟩,
  ⟨"Process.setStderr", "Handle -> Process -> Process", 2, [.whnf, .whnf], "process_set_stderr"⟩,
  ⟨"Process.setStdin", "Handle -> Process -> Process", 2, [.whnf, .whnf], "process_set_stdin"⟩,
  ⟨"Process.setStdout", "Handle -> Process -> Process", 2, [.whnf, .whnf], "process_set_stdout"⟩,
  ⟨"Process.setWorkingDir", "Text -> Process -> Process", 2, [.whnf, .whnf], "process_set_working_dir"⟩,
  ⟨"Process.useHandleClose", "Handle -> Handle", 1, [.whnf], "process_use_handle_close"⟩,
  ⟨"Process.useHandleOpen", "Handle -> Handle", 1, [.whnf], "process_use_handle_open"⟩,
  ⟨"Set.delete", "forall a. Ord a => a -> Set a -> Set a", 2, [.lazy, .whnf], "set_delete"⟩,
  ⟨"Set.difference", "forall a. Ord a => Set a -> Set a -> Set a", 2, [.whnf, .whnf], "set_difference"⟩,
  ⟨"Set.fromList", "forall a. Ord a => [a] -> Set a", 1, [.whnf], "set_from_list"⟩,
  ⟨"Set.insert", "forall a. Ord a => a -> Set a -> Set a", 2, [.lazy, .whnf], "set_insert"⟩,
  ⟨"Set.intersection",
    "forall a. Ord a => Set a -> Set a -> Set a",
    2, [.whnf, .whnf], "set_intersection"⟩,
  ⟨"Set.member", "forall a. Ord a => a -> Set a -> Bool", 2, [.lazy, .whnf], "set_member"⟩,
  ⟨"Set.singleton", "forall a. Ord a => a -> Set a", 1, [.whnf], "set_singleton"⟩,
  ⟨"Set.size", "forall a. Set a -> Int", 1, [.whnf], "set_size"⟩,
  ⟨"Set.toList", "forall a. Set a -> [a]", 1, [.whnf], "set_to_list"⟩,
  ⟨"Set.union", "forall a. Ord a => Set a -> Set a -> Set a", 2, [.whnf, .whnf], "set_union"⟩,
  ⟨"ByteString.getContents", "IO ByteString", 0, [], "bytes_get_contents"⟩,
  ⟨"ByteString.hGet",
    "Handle -> Int -> IO ByteString",
    2, [.onIoExecution, .onIoExecution], "bytes_h_get"⟩,
  ⟨"ByteString.hPutStr",
    "Handle -> ByteString -> IO ()",
    2, [.onIoExecution, .onIoExecution], "bytes_h_put_str"⟩,
  ⟨"ByteString.interact", "(ByteString -> ByteString) -> IO ()", 1, [.lazy], "bytes_interact"⟩,
  ⟨"ByteString.readFile", "Text -> IO ByteString", 1, [.onIoExecution], "bytes_read_file"⟩,
  ⟨"ByteString.readProcess",
    "Process -> IO (ExitCode, ByteString, ByteString)",
    1, [.onIoExecution], "bytes_read_process"⟩,
  ⟨"ByteString.readProcessStdout_",
    "Process -> IO ByteString",
    1, [.onIoExecution], "bytes_read_process_stdout_checked"⟩,
  ⟨"ByteString.readProcess_",
    "Process -> IO (ByteString, ByteString)",
    1, [.onIoExecution], "bytes_read_process_checked"⟩,
  ⟨"ByteString.writeFile",
    "Text -> ByteString -> IO ()",
    2, [.onIoExecution, .onIoExecution], "bytes_write_file"⟩,
  ⟨"Double.eq", "Double -> Double -> Bool", 2, [.whnf, .whnf], "double_eq"⟩,
  ⟨"Double.fromInt", "Int -> Double", 1, [.whnf], "double_from_int"⟩,
  ⟨"Double.mult", "Double -> Double -> Double", 2, [.whnf, .whnf], "double_mult"⟩,
  ⟨"Double.plus", "Double -> Double -> Double", 2, [.whnf, .whnf], "double_plus"⟩,
  ⟨"Double.readMaybe", "Text -> Maybe Double", 1, [.whnf], "double_read_maybe"⟩,
  ⟨"Double.show", "Double -> Text", 1, [.whnf], "double_show"⟩,
  ⟨"Double.showEFloat",
    "Maybe Int -> Double -> Text -> Text",
    3, [.whnf, .whnf, .whnf], "double_show_e_float"⟩,
  ⟨"Double.showFFloat",
    "Maybe Int -> Double -> Text -> Text",
    3, [.whnf, .whnf, .whnf], "double_show_f_float"⟩,
  ⟨"Double.subtract", "Double -> Double -> Double", 2, [.whnf, .whnf], "double_subtract"⟩,
  ⟨"Json.Array", "Vector Value -> Value", 1, [.lazy], "json_array"⟩,
  ⟨"Json.Bool", "Bool -> Value", 1, [.lazy], "json_bool"⟩,
  ⟨"Json.Null", "Value", 0, [], "json_null"⟩,
  ⟨"Json.Number", "Double -> Value", 1, [.lazy], "json_number"⟩,
  ⟨"Json.Object", "Map Text Value -> Value", 1, [.lazy], "json_object"⟩,
  ⟨"Json.String", "Text -> Value", 1, [.lazy], "json_string"⟩,
  ⟨"Json.decode", "ByteString -> Maybe Value", 1, [.whnf], "json_decode"⟩,
  ⟨"Json.encode", "Value -> ByteString", 1, [.whnf], "json_encode"⟩,
  ⟨"Json.value",
    "forall a. a -> (Bool -> a) -> (Text -> a) -> (Double -> a) -> (Vector Value -> a) -> (Map Text Value -> a) -> Value -> a",
    7, [.lazy, .lazy, .lazy, .lazy, .lazy, .lazy, .whnf], "json_eliminate"⟩,
  ⟨"Monad.bind", "forall m a b. Monad m => m a -> (a -> m b) -> m b", 2, [.lazy, .lazy], "io_bind"⟩,
  ⟨"Monad.forM", "manifest-driven monadic list traversal", 2, [.lazy, .lazy], "monad_for_m"⟩,
  ⟨"Monad.forM_", "manifest-driven monadic list traversal", 2, [.lazy, .lazy], "monad_for_m_discard"⟩,
  ⟨"Monad.mapM", "manifest-driven monadic list traversal", 2, [.lazy, .lazy], "monad_map_m"⟩,
  ⟨"Monad.mapM_", "manifest-driven monadic list traversal", 2, [.lazy, .lazy], "monad_map_m_discard"⟩,
  ⟨"Monad.return", "forall m a. Monad m => a -> m a", 1, [.lazy], "io_pure"⟩,
  ⟨"Monad.sequence", "manifest-driven monadic list traversal", 1, [.lazy], "monad_sequence"⟩]

/-- `Monad.then` to `Maybe.Nothing`. -/
def fifthRows : List BuiltinSpec := [
  ⟨"Monad.then", "forall m a b. Monad m => m a -> m b -> m b", 2, [.lazy, .lazy], "io_then"⟩,
  ⟨"Monad.when", "forall m. Monad m => Bool -> m () -> m ()", 2, [.whnf, .lazy], "monad_when"⟩,
  ⟨"Int.eq", "Int -> Int -> Bool", 2, [.whnf, .whnf], "int_eq"⟩,
  ⟨"Int.fromInteger", "Integer -> Int", 1, [.whnf], "int_from_integer"⟩,
  ⟨"Int.mult", "Int -> Int -> Int", 2, [.whnf, .whnf], "int_mult"⟩,
  ⟨"Int.plus", "Int -> Int -> Int", 2, [.whnf, .whnf], "int_plus"⟩,
  ⟨"Int.readMaybe", "Text -> Maybe Int", 1, [.whnf], "int_read_maybe"⟩,
  ⟨"Int.show", "Int -> Text", 1, [.whnf], "int_show"⟩,
  ⟨"Int.subtract", "Int -> Int -> Int", 2, [.whnf, .whnf], "int_subtract"⟩,
  ⟨"Int.toInteger", "Int -> Integer", 1, [.whnf], "int_to_integer"⟩,
  ⟨"TimeOfDay.makeTimeOfDayValid",
    "Int -> Int -> Double -> Maybe TimeOfDay",
    3, [.whnf, .whnf, .whnf], "time_of_day_make_valid"⟩,
  ⟨"TimeOfDay.midday", "TimeOfDay", 0, [], "time_of_day_midday"⟩,
  ⟨"TimeOfDay.midnight", "TimeOfDay", 0, [], "time_of_day_midnight"⟩,
  ⟨"TimeOfDay.timeOfDayToTime", "TimeOfDay -> Double", 1, [.whnf], "time_of_day_to_time"⟩,
  ⟨"TimeOfDay.timeToTimeOfDay", "Double -> TimeOfDay", 1, [.whnf], "time_of_day_from_time"⟩,
  ⟨"TimeOfDay.todHour", "TimeOfDay -> Int", 1, [.whnf], "time_of_day_hour"⟩,
  ⟨"TimeOfDay.todMin", "TimeOfDay -> Int", 1, [.whnf], "time_of_day_minute"⟩,
  ⟨"TimeOfDay.todSec", "TimeOfDay -> Double", 1, [.whnf], "time_of_day_second"⟩,
  ⟨"UTCTime.UTCTime", "Day -> Double -> UTCTime", 2, [.whnf, .whnf], "utc_time_new"⟩,
  ⟨"UTCTime.addUTCTime", "Double -> UTCTime -> UTCTime", 2, [.whnf, .whnf], "utc_time_add"⟩,
  ⟨"UTCTime.diffUTCTime", "UTCTime -> UTCTime -> Double", 2, [.whnf, .whnf], "utc_time_diff"⟩,
  ⟨"UTCTime.getCurrentTime", "IO UTCTime", 0, [], "utc_time_get_current"⟩,
  ⟨"UTCTime.iso8601ParseM", "Text -> Maybe UTCTime", 1, [.whnf], "utc_time_iso8601_parse"⟩,
  ⟨"UTCTime.iso8601Show", "UTCTime -> Text", 1, [.whnf], "utc_time_iso8601_show"⟩,
  ⟨"UTCTime.utctDay", "UTCTime -> Day", 1, [.whnf], "utc_time_day"⟩,
  ⟨"UTCTime.utctDayTime", "UTCTime -> Double", 1, [.whnf], "utc_time_day_time"⟩,
  ⟨"Day.addDays", "Integer -> Day -> Day", 2, [.whnf, .whnf], "day_add_days"⟩,
  ⟨"Day.dayOfWeek", "Day -> DayOfWeek", 1, [.whnf], "day_of_week"⟩,
  ⟨"Day.diffDays", "Day -> Day -> Integer", 2, [.whnf, .whnf], "day_diff_days"⟩,
  ⟨"Day.fromGregorianValid",
    "Integer -> Int -> Int -> Maybe Day",
    3, [.whnf, .whnf, .whnf], "day_from_gregorian_valid"⟩,
  ⟨"Day.iso8601ParseM", "Text -> Maybe Day", 1, [.whnf], "day_iso8601_parse"⟩,
  ⟨"Day.iso8601Show", "Day -> Text", 1, [.whnf], "day_iso8601_show"⟩,
  ⟨"Day.toGregorian", "Day -> (Integer, Int, Int)", 1, [.whnf], "day_to_gregorian"⟩,
  ⟨"Async.concurrently",
    "forall a b. IO a -> IO b -> IO (a, b)",
    2, [.onIoExecution, .onIoExecution], "async_concurrently"⟩,
  ⟨"Async.pooledForConcurrently",
    "forall a b. [a] -> (a -> IO b) -> IO [b]",
    2, [.onIoExecution, .onIoExecution], "async_pooled_for"⟩,
  ⟨"Async.pooledForConcurrently_",
    "forall a. [a] -> (a -> IO ()) -> IO ()",
    2, [.onIoExecution, .onIoExecution], "async_pooled_for_"⟩,
  ⟨"Async.pooledMapConcurrently",
    "forall a b. (a -> IO b) -> [a] -> IO [b]",
    2, [.onIoExecution, .onIoExecution], "async_pooled_map"⟩,
  ⟨"Async.pooledMapConcurrently_",
    "forall a. (a -> IO ()) -> [a] -> IO ()",
    2, [.onIoExecution, .onIoExecution], "async_pooled_map_"⟩,
  ⟨"Async.race",
    "forall a b. IO a -> IO b -> IO (Either a b)",
    2, [.onIoExecution, .onIoExecution], "async_race"⟩,
  ⟨"$", "forall a b. (a -> b) -> a -> b", 2, [.lazy, .lazy], "apply"⟩,
  ⟨".", "forall a b c. (b -> c) -> (a -> b) -> a -> c", 3, [.lazy, .lazy, .lazy], "compose"⟩,
  ⟨"<$>", "forall f a b. Functor f => (a -> b) -> f a -> f b", 2, [.lazy, .lazy], "functor_map"⟩,
  ⟨"<**>",
    "forall f a b. Applicative f => f a -> f (a -> b) -> f b",
    2, [.lazy, .lazy], "applicative_apply_flipped"⟩,
  ⟨"<*>",
    "forall f a b. Applicative f => f (a -> b) -> f a -> f b",
    2, [.lazy, .lazy], "applicative_apply"⟩,
  ⟨"<>", "forall a. Semigroup a => a -> a -> a", 2, [.lazy, .lazy], "semigroup_append"⟩,
  ⟨"Tree.Node", "forall a. a -> [Tree a] -> Tree a", 2, [.lazy, .lazy], "tree_node"⟩,
  ⟨"Tree.flatten", "forall a. Tree a -> [a]", 1, [.lazy], "tree_flatten"⟩,
  ⟨"Tree.foldTree", "forall a b. (a -> [b] -> b) -> Tree a -> b", 2, [.lazy, .lazy], "tree_fold"⟩,
  ⟨"Tree.levels", "forall a. Tree a -> [[a]]", 1, [.lazy], "tree_levels"⟩,
  ⟨"Tree.map", "forall a b. (a -> b) -> Tree a -> Tree b", 2, [.lazy, .lazy], "tree_map"⟩,
  ⟨"Tree.unfoldTree", "forall a b. (b -> (a, [b])) -> b -> Tree a", 2, [.lazy, .lazy], "tree_unfold"⟩,
  ⟨"Exit.ExitFailure", "Int -> ExitCode", 1, [.lazy], "exit_failure"⟩,
  ⟨"Exit.ExitSuccess", "ExitCode", 0, [], "exit_success"⟩,
  ⟨"Exit.die", "forall a. Text -> IO a", 1, [.onIoExecution], "exit_die"⟩,
  ⟨"Exit.exitCode",
    "forall a. a -> (Int -> a) -> ExitCode -> a",
    3, [.lazy, .lazy, .whnf], "exit_eliminate"⟩,
  ⟨"Exit.exitWith", "forall a. ExitCode -> IO a", 1, [.onIoExecution], "exit_with"⟩,
  ⟨"Maybe.Just", "forall a. a -> Maybe a", 1, [.lazy], "maybe_just"⟩,
  ⟨"Maybe.Nothing", "forall a. Maybe a", 0, [], "maybe_nothing"⟩]

/-- `Maybe.listToMaybe` to `Timeout.timeout`. -/
def sixthRows : List BuiltinSpec := [
  ⟨"Maybe.listToMaybe", "forall a. [a] -> Maybe a", 1, [.whnf], "maybe_list_to_maybe"⟩,
  ⟨"Maybe.mapMaybe", "forall a b. (a -> Maybe b) -> [a] -> [b]", 2, [.lazy, .lazy], "maybe_map_maybe"⟩,
  ⟨"Maybe.maybe",
    "forall a b. b -> (a -> b) -> Maybe a -> b",
    3, [.lazy, .lazy, .whnf], "maybe_eliminate"⟩,
  ⟨"Bool.False", "Bool", 0, [], "bool_false"⟩,
  ⟨"Bool.True", "Bool", 0, [], "bool_true"⟩,
  ⟨"Bool.bool", "forall a. a -> a -> Bool -> a", 3, [.lazy, .lazy, .conditional], "bool_choose"⟩,
  ⟨"Bool.not", "Bool -> Bool", 1, [.whnf], "bool_not"⟩,
  ⟨"Integer.mult", "Integer -> Integer -> Integer", 2, [.whnf, .whnf], "integer_mult"⟩,
  ⟨"Integer.plus", "Integer -> Integer -> Integer", 2, [.whnf, .whnf], "integer_plus"⟩,
  ⟨"Integer.readMaybe", "Text -> Maybe Integer", 1, [.whnf], "integer_read_maybe"⟩,
  ⟨"Integer.subtract", "Integer -> Integer -> Integer", 2, [.whnf, .whnf], "integer_subtract"⟩,
  ⟨"These.That", "forall a b. b -> These a b", 1, [.lazy], "these_that"⟩,
  ⟨"These.These", "forall a b. a -> b -> These a b", 2, [.lazy, .lazy], "these_both"⟩,
  ⟨"These.This", "forall a b. a -> These a b", 1, [.lazy], "these_this"⟩,
  ⟨"These.these",
    "forall a b c. (a -> c) -> (b -> c) -> (a -> b -> c) -> These a b -> c",
    4, [.lazy, .lazy, .lazy, .whnf], "these_eliminate"⟩,
  ⟨"Argument.help", "forall a. Text -> Options.Mod fields a", 1, [.whnf], "options_help"⟩,
  ⟨"Argument.metavar", "forall a. Text -> Options.Mod fields a", 1, [.whnf], "options_metavar"⟩,
  ⟨"Argument.value", "forall a fields. a -> Options.Mod fields a", 1, [.lazy], "options_default"⟩,
  ⟨"Either.Left", "forall a b. a -> Either a b", 1, [.lazy], "either_left"⟩,
  ⟨"Either.Right", "forall a b. b -> Either a b", 1, [.lazy], "either_right"⟩,
  ⟨"Either.either",
    "forall a b x. (a -> x) -> (b -> x) -> Either a b -> x",
    3, [.lazy, .lazy, .whnf], "either_eliminate"⟩,
  ⟨"Environment.getArgs", "IO [Text]", 0, [], "environment_get_args"⟩,
  ⟨"Environment.getEnv", "Text -> IO Text", 1, [.onIoExecution], "environment_get_env"⟩,
  ⟨"Environment.getEnvironment", "IO [(Text, Text)]", 0, [], "environment_get_environment"⟩,
  ⟨"Option.help", "forall a. Text -> Options.Mod fields a", 1, [.whnf], "options_help"⟩,
  ⟨"Option.long", "forall a. Text -> Options.Mod fields a", 1, [.whnf], "options_long"⟩,
  ⟨"Option.value", "forall a fields. a -> Options.Mod fields a", 1, [.lazy], "options_default"⟩,
  ⟨"Record.get",
    "forall (k :: Symbol) a (t :: Symbol) xs. hell:Hell.Tagged t (hell:Hell.Record xs) -> a",
    1, [.lazy], "record_get_specialized"⟩,
  ⟨"Record.modify",
    "forall (k :: Symbol) a (t :: Symbol) xs. (a -> a) -> hell:Hell.Tagged t (hell:Hell.Record xs) -> hell:Hell.Tagged t (hell:Hell.Record xs)",
    2, [.lazy, .lazy], "record_modify_specialized"⟩,
  ⟨"Record.set",
    "forall (k :: Symbol) a (t :: Symbol) xs. a -> hell:Hell.Tagged t (hell:Hell.Record xs) -> hell:Hell.Tagged t (hell:Hell.Record xs)",
    2, [.lazy, .lazy], "record_set_specialized"⟩,
  ⟨"Tuple.(,)", "forall a b. a -> b -> (a, b)", 2, [.lazy, .lazy], "tuple2"⟩,
  ⟨"Tuple.(,,)", "forall a b c. a -> b -> c -> (a, b, c)", 3, [.lazy, .lazy, .lazy], "tuple3"⟩,
  ⟨"Tuple.(,,,)",
    "forall a b c d. a -> b -> c -> d -> (a, b, c, d)",
    4, [.lazy, .lazy, .lazy, .lazy], "tuple4"⟩,
  ⟨"Alternative.many", "forall f a. Alternative f => f a -> f [a]", 1, [.lazy], "alternative_many"⟩,
  ⟨"Alternative.optional",
    "forall f a. Alternative f => f a -> f (Maybe a)",
    1, [.lazy], "alternative_optional"⟩,
  ⟨"CI.foldedCase", "forall a. CI a -> a", 1, [.whnf], "ci_folded_case"⟩,
  ⟨"CI.mk", "forall a. FoldCase a => a -> CI a", 1, [.whnf], "ci_mk"⟩,
  ⟨"Flag.help", "forall a. Text -> Options.Mod fields a", 1, [.whnf], "options_help"⟩,
  ⟨"Flag.long", "forall a. Text -> Options.Mod fields a", 1, [.whnf], "options_long"⟩,
  ⟨"Function.fix", "forall a. (a -> a) -> a", 1, [.lazy], "fix"⟩,
  ⟨"Function.id", "forall a. a -> a", 1, [.lazy], "identity"⟩,
  ⟨"Ord.gt", "forall a. Ord a => a -> a -> Bool", 2, [.whnf, .whnf], "ord_gt"⟩,
  ⟨"Ord.lt", "forall a. Ord a => a -> a -> Bool", 2, [.whnf, .whnf], "ord_lt"⟩,
  ⟨"Temp.withSystemTempDirectory",
    "forall a. Text -> (Text -> IO a) -> IO a",
    2, [.onIoExecution, .onIoExecution], "temp_with_directory"⟩,
  ⟨"Temp.withSystemTempFile",
    "forall a. Text -> (Text -> Handle -> IO a) -> IO a",
    2, [.onIoExecution, .onIoExecution], "temp_with_file"⟩,
  ⟨"Vector.fromList", "forall a. [a] -> Vector a", 1, [.whnf], "vector_from_list"⟩,
  ⟨"Vector.toList", "forall a. Vector a -> [a]", 1, [.whnf], "vector_to_list"⟩,
  ⟨"Applicative.pure", "forall f a. Applicative f => a -> f a", 1, [.lazy], "applicative_pure"⟩,
  ⟨"Builder.byteString", "ByteString -> Builder", 1, [.whnf], "builder_byte_string"⟩,
  ⟨"Concurrent.threadDelay", "Int -> IO ()", 1, [.onIoExecution], "thread_delay"⟩,
  ⟨"Eq.eq", "forall a. Eq a => a -> a -> Bool", 2, [.whnf, .whnf], "eq"⟩,
  ⟨"Error.error", "forall a. Text -> a", 1, [.whnf], "error"⟩,
  ⟨"Functor.fmap", "forall f a b. Functor f => (a -> b) -> f a -> f b", 2, [.lazy, .lazy], "functor_map"⟩,
  ⟨"Show.show", "forall a. Show a => a -> Text", 1, [.whnf], "show"⟩,
  ⟨"Timeout.timeout",
    "forall a. Int -> IO a -> IO (Maybe a)",
    2, [.onIoExecution, .onIoExecution], "timeout"⟩]

/-- The rows of `INTERNAL_NAMES`. -/
def internalRows : List BuiltinSpec := [
  ⟨"hell:Hell.ConsA",
    "forall (k :: Symbol) a r xs. (a -> r) -> hell:Hell.Accessor xs r -> hell:Hell.Accessor (hell:Hell.ConsL k a xs) r",
    2, [.lazy, .lazy], "internal_accessor_cons"⟩,
  ⟨"hell:Hell.ConsR",
    "forall (k :: Symbol) a xs. a -> hell:Hell.Record xs -> hell:Hell.Record (hell:Hell.ConsL k a xs)",
    2, [.lazy, .lazy], "internal_record_cons"⟩,
  ⟨"hell:Hell.LeftV",
    "forall (k :: Symbol) a xs. a -> hell:Hell.Variant (hell:Hell.ConsL k a xs)",
    1, [.lazy], "internal_variant_left"⟩,
  ⟨"hell:Hell.NilA", "forall r. hell:Hell.Accessor hell:Hell.NilL r", 0, [], "internal_accessor_nil"⟩,
  ⟨"hell:Hell.NilR", "hell:Hell.Record hell:Hell.NilL", 0, [], "internal_record_nil"⟩,
  ⟨"hell:Hell.Nullary", "hell:Hell.Nullary", 0, [], "internal_nullary"⟩,
  ⟨"hell:Hell.RightV",
    "forall (k :: Symbol) a xs (k' :: Symbol) a'. hell:Hell.Variant (hell:Hell.ConsL k' a' xs) -> hell:Hell.Variant (hell:Hell.ConsL k a (hell:Hell.ConsL k' a' xs))",
    1, [.lazy], "internal_variant_right"⟩,
  ⟨"hell:Hell.Tagged", "forall (t :: Symbol) a. a -> hell:Hell.Tagged t a", 1, [.lazy], "internal_tagged"⟩,
  ⟨"hell:Hell.WildA", "forall r xs. r -> hell:Hell.Accessor xs r", 1, [.lazy], "internal_accessor_wild"⟩,
  ⟨"hell:Hell.runAccessor",
    "forall (t :: Symbol) r xs. hell:Hell.Tagged t (hell:Hell.Variant xs) -> hell:Hell.Accessor xs r -> r",
    2, [.whnf, .whnf], "internal_run_accessor"⟩]

/-- The registry: a builtin identifier is a position. -/
def registry : List BuiltinSpec :=
  firstRows ++ secondRows ++ thirdRows ++ fourthRows ++ fifthRows ++ sixthRows ++ internalRows

def lookup (name : String) : Option BuiltinSpec := registry.find? fun spec => spec.name = name

/-- `builtin_type_class`. -/
def builtinTypeClass (name : String) : Option TypeClass :=
  if name ∈ ["Show.show", "IO.print"] then some .Show
  else if name ∈ ["Eq.eq", "List.lookup", "List.elem", "List.notElem", "List.elemIndex",
      "List.elemIndices", "List.group", "List.isInfixOf", "List.isPrefixOf",
      "List.isSubsequenceOf", "List.isSuffixOf"] then some .Eq
  else if name ∈ ["Ord.lt", "Ord.gt", "List.sort", "List.sortOn", "List.nubOrd", "Map.fromList",
      "Map.lookup", "Map.insert", "Map.delete", "Map.singleton", "Map.insertWith", "Map.adjust",
      "Map.unionWith", "Set.fromList", "Set.insert", "Set.member", "Set.delete", "Set.union",
      "Set.difference", "Set.intersection", "Set.singleton"] then some .Ord
  else if name ∈ ["Functor.fmap", "<$>"] then some .Functor
  else if name ∈ ["Applicative.pure", "<*>", "<**>"] then some .Applicative
  else if name ∈ ["Monad.bind", "Monad.then", "Monad.return", "Monad.mapM", "Monad.mapM_",
      "Monad.forM", "Monad.forM_", "Monad.sequence", "Monad.when"] then some .Monad
  else if name ∈ ["Alternative.optional", "Alternative.many"] then some .Alternative
  else if name ∈ ["<>"] then some .Semigroup
  else if name ∈ ["CI.mk"] then some .FoldCase
  else none

/-- One projection of the instance head out of the type of a builtin. -/
inductive InstanceHeadProjection where
  | functionArgument (index : ℕ)
  | functionResult
  | applyFunction
  | applyArgument
deriving DecidableEq, Repr

/-- `instance_head_projection`. -/
def instanceHeadProjection (name : String) : Option (List InstanceHeadProjection) :=
  if name ∈ ["Show.show", "IO.print", "Eq.eq", "Ord.lt", "Ord.gt", "List.lookup", "List.elem",
      "List.notElem", "List.elemIndex", "List.elemIndices", "Map.lookup", "Map.insert",
      "Map.delete", "Map.singleton", "Set.insert", "Set.member", "Set.delete", "Set.singleton",
      "CI.mk", "<>"] then
    some [.functionArgument 0]
  else if name ∈ ["Map.insertWith", "Map.adjust"] then
    some [.functionArgument 1]
  else if name ∈ ["List.group", "List.isInfixOf", "List.isPrefixOf", "List.isSubsequenceOf",
      "List.isSuffixOf", "List.sort", "List.nubOrd", "Set.union", "Set.difference",
      "Set.intersection"] then
    some [.functionArgument 0, .applyArgument]
  else if name ∈ ["List.sortOn"] then
    some [.functionArgument 0, .functionResult]
  else if name ∈ ["Map.fromList"] then
    some [.functionResult, .applyFunction, .applyArgument]
  else if name ∈ ["Map.unionWith"] then
    some [.functionArgument 1, .applyFunction, .applyArgument]
  else if name ∈ ["Set.fromList"] then
    some [.functionResult, .applyArgument]
  else if name ∈ ["Functor.fmap", "<$>", "Monad.when"] then
    some [.functionArgument 1, .applyFunction]
  else if name ∈ ["Applicative.pure", "Monad.return"] then
    some [.functionResult, .applyFunction]
  else if name ∈ ["<*>", "<**>", "Alternative.optional", "Alternative.many", "Monad.bind",
      "Monad.then"] then
    some [.functionArgument 0, .applyFunction]
  else if name ∈ ["Monad.mapM", "Monad.mapM_"] then
    some [.functionArgument 0, .functionResult, .applyFunction]
  else if name ∈ ["Monad.forM", "Monad.forM_"] then
    some [.functionArgument 1, .functionResult, .applyFunction]
  else if name ∈ ["Monad.sequence"] then
    some [.functionArgument 0, .applyArgument, .applyFunction]
  else none

inductive InstanceResolution where
  | direct (arity : ℕ)
  | entail (arity : ℕ)
deriving DecidableEq, Repr

def InstanceResolution.headArity : InstanceResolution → ℕ
  | .direct arity => arity
  | .entail arity => arity

def InstanceResolution.premiseCount : InstanceResolution → ℕ
  | .direct _ => 0
  | .entail count => count

structure InstanceSpec where
  typeClass : TypeClass
  target : String
  resolution : InstanceResolution
deriving DecidableEq, Repr

/-- The instance manifest. -/
def instances : List InstanceSpec := [
  ⟨.Show, "[]", .entail 1⟩,
  ⟨.Show, "Set", .entail 1⟩,
  ⟨.Show, "CI", .entail 1⟩,
  ⟨.Show, "Tree", .entail 1⟩,
  ⟨.Show, "Maybe", .entail 1⟩,
  ⟨.Show, "Vector", .entail 1⟩,
  ⟨.Show, "Either", .entail 2⟩,
  ⟨.Show, "(,)", .entail 2⟩,
  ⟨.Show, "Int", .direct 0⟩,
  ⟨.Show, "Integer", .direct 0⟩,
  ⟨.Show, "Day", .direct 0⟩,
  ⟨.Show, "DayOfWeek", .direct 0⟩,
  ⟨.Show, "UTCTime", .direct 0⟩,
  ⟨.Show, "TimeOfDay", .direct 0⟩,
  ⟨.Show, "Double", .direct 0⟩,
  ⟨.Show, "Bool", .direct 0⟩,
  ⟨.Show, "Char", .direct 0⟩,
  ⟨.Show, "Text", .direct 0⟩,
  ⟨.Show, "ByteString", .direct 0⟩,
  ⟨.Show, "Builder", .direct 0⟩,
  ⟨.Show, "ExitCode", .direct 0⟩,
  ⟨.Show, "Value", .direct 0⟩,
  ⟨.Eq, "CI", .entail 1⟩,
  ⟨.Eq, "[]", .entail 1⟩,
  ⟨.Eq, "Set", .entail 1⟩,
  ⟨.Eq, "Maybe", .entail 1⟩,
  ⟨.Eq, "Either", .entail 2⟩,
  ⟨.Eq, "(,)", .entail 2⟩,
  ⟨.Eq, "Tree", .entail 1⟩,
  ⟨.Eq, "Vector", .entail 1⟩,
  ⟨.Eq, "Int", .direct 0⟩,
  ⟨.Eq, "Integer", .direct 0⟩,
  ⟨.Eq, "Day", .direct 0⟩,
  ⟨.Eq, "DayOfWeek", .direct 0⟩,
  ⟨.Eq, "UTCTime", .direct 0⟩,
  ⟨.Eq, "TimeOfDay", .direct 0⟩,
  ⟨.Eq, "Double", .direct 0⟩,
  ⟨.Eq, "Bool", .direct 0⟩,
  ⟨.Eq, "Char", .direct 0⟩,
  ⟨.Eq, "Text", .direct 0⟩,
  ⟨.Eq, "ByteString", .direct 0⟩,
  ⟨.Eq, "ExitCode", .direct 0⟩,
  ⟨.Ord, "[]", .entail 1⟩,
  ⟨.Ord, "Set", .entail 1⟩,
  ⟨.Ord, "CI", .entail 1⟩,
  ⟨.Ord, "Maybe", .entail 1⟩,
  ⟨.Ord, "Either", .entail 2⟩,
  ⟨.Ord, "(,)", .entail 2⟩,
  ⟨.Ord, "Tree", .entail 1⟩,
  ⟨.Ord, "Vector", .entail 1⟩,
  ⟨.Ord, "Int", .direct 0⟩,
  ⟨.Ord, "Integer", .direct 0⟩,
  ⟨.Ord, "Day", .direct 0⟩,
  ⟨.Ord, "DayOfWeek", .direct 0⟩,
  ⟨.Ord, "UTCTime", .direct 0⟩,
  ⟨.Ord, "TimeOfDay", .direct 0⟩,
  ⟨.Ord, "Double", .direct 0⟩,
  ⟨.Ord, "Bool", .direct 0⟩,
  ⟨.Ord, "Char", .direct 0⟩,
  ⟨.Ord, "Text", .direct 0⟩,
  ⟨.Ord, "ByteString", .direct 0⟩,
  ⟨.Ord, "ExitCode", .direct 0⟩,
  ⟨.Monad, "IO", .direct 0⟩,
  ⟨.Monad, "Maybe", .direct 0⟩,
  ⟨.Monad, "[]", .direct 0⟩,
  ⟨.Monad, "Tree", .direct 0⟩,
  ⟨.Monad, "Either", .direct 1⟩,
  ⟨.Functor, "IO", .direct 0⟩,
  ⟨.Functor, "Maybe", .direct 0⟩,
  ⟨.Functor, "[]", .direct 0⟩,
  ⟨.Functor, "Tree", .direct 0⟩,
  ⟨.Functor, "Options.Parser", .direct 0⟩,
  ⟨.Functor, "Either", .direct 1⟩,
  ⟨.Functor, "(,)", .direct 1⟩,
  ⟨.Applicative, "IO", .direct 0⟩,
  ⟨.Applicative, "Maybe", .direct 0⟩,
  ⟨.Applicative, "[]", .direct 0⟩,
  ⟨.Applicative, "Tree", .direct 0⟩,
  ⟨.Applicative, "Options.Parser", .direct 0⟩,
  ⟨.Applicative, "Either", .direct 1⟩,
  ⟨.Alternative, "Options.Parser", .direct 0⟩,
  ⟨.Alternative, "Maybe", .direct 0⟩,
  ⟨.Monoid, "Maybe", .entail 1⟩,
  ⟨.Monoid, "Text", .direct 0⟩,
  ⟨.Monoid, "Builder", .direct 0⟩,
  ⟨.Monoid, "Vector", .direct 1⟩,
  ⟨.Monoid, "Options.Mod", .direct 2⟩,
  ⟨.Monoid, "[]", .direct 1⟩,
  ⟨.Semigroup, "Maybe", .entail 1⟩,
  ⟨.Semigroup, "Either", .direct 2⟩,
  ⟨.Semigroup, "Options.Mod", .direct 2⟩,
  ⟨.Semigroup, "Options.InfoMod", .direct 1⟩,
  ⟨.Semigroup, "Text", .direct 0⟩,
  ⟨.Semigroup, "Builder", .direct 0⟩,
  ⟨.Semigroup, "Vector", .direct 1⟩,
  ⟨.Semigroup, "[]", .direct 1⟩,
  ⟨.FoldCase, "Text", .direct 0⟩,
  ⟨.FoldCase, "ByteString", .direct 0⟩]

/-- `instance(class, target)`. -/
def findInstance (typeClass : TypeClass) (target : String) : Option InstanceSpec :=
  instances.find? fun spec => spec.typeClass = typeClass ∧ spec.target = target

end HellRs.Builtins
